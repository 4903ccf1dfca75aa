import PullStream.Proofs.Cursor.Stepwise
import PullStream.Proofs.Cursor.Surrounding
import PullStream.Proofs.ShortCircuit.Visiting
import Mathlib.Order.Bounds.Basic

/-!
# Searches from a position on

To look for an element from a position on is to leave out what lies before and to scan the rest. It
can be done by `nth`, as `indexOf` does, or by the stage that leaves elements out, and both take the
same elements. Positions are counted; a counter that cannot go beyond `most` is no obstacle as long
as not more elements than that are taken.
-/

set_option autoImplicit false

namespace PullStream

variable {W α : Type}

namespace Cursor

/-! ## What `nth` takes -/

section Nth

variable {c d e : Cursor W α} {n fuel : Nat} {w v t : W} {o : Option α}

theorem crosses_of_nthByNext (h : nthByNext (next fuel) n c w = some (.ok o, e, t)) :
    Crosses c (n + 1) w (.ok o.isSome, e, t) := by
  induction n generalizing c w with
  | zero =>
    rw [nthByNext, next] at h
    rcases hs : c.step fuel w with _ | ⟨p | a | _, d, v⟩ <;> rw [hs] at h
    · cases h
    · cases h
    · cases h
      exact crosses_of_step_yield hs .here
    · cases h
      exact crosses_of_step_done hs
  | succ n ih =>
    rw [nthByNext, next] at h
    rcases hs : c.step fuel w with _ | ⟨p | a | _, d, v⟩ <;> rw [hs] at h
    · cases h
    · cases h
    · exact crosses_of_step_yield hs (ih h)
    · cases h
      exact crosses_of_step_done hs

theorem nthByNext_of_done (h : c.step fuel w = some (.ok .done, d, v)) (n : Nat) :
    nthByNext (next fuel) n c w = some (.ok none, d, v) := by
  cases n <;> simp only [nthByNext, next, h, Option.map_some, Except.map, Step.toOption]

theorem nthByNext_of_yield {a : α} (h : c.step fuel w = some (.ok (.yield a), d, v)) (n : Nat) :
    nthByNext (next fuel) n c w =
      if n = 0 then some (.ok (some a), d, v) else nthByNext (next fuel) (n - 1) d v := by
  cases n <;> simp only [nthByNext, next, h, Option.map_some, Except.map, Step.toOption] <;> rfl

theorem Crosses.settles_nthByNext {b : Bool} (h : Crosses c (n + 1) w (.ok b, e, t)) :
    ∃ o, o.isSome = b ∧ Settles (fun fuel => nthByNext (next fuel) n c w) (.ok o, e, t) := by
  induction n generalizing c w with
  | zero =>
    rcases h.first_step with ⟨a, d, v, hs, h⟩ | ⟨d, v, hs, hr⟩ | ⟨p, d, v, -, hr⟩
    · cases h
      exact ⟨some a, rfl, settles_of_both hs hs fun _ hf _ => nthByNext_of_yield hf 0⟩
    · cases hr
      exact ⟨none, rfl, settles_of_both hs hs fun _ hf _ => nthByNext_of_done hf 0⟩
    · cases hr
  | succ n ih =>
    rcases h.first_step with ⟨a, d, v, hs, h⟩ | ⟨d, v, hs, hr⟩ | ⟨p, d, v, -, hr⟩
    · obtain ⟨o, ho, hn⟩ := ih h
      exact ⟨o, ho, settles_of_both hs hn fun _ hf hg => (nthByNext_of_yield hf (n + 1)).trans hg⟩
    · cases hr
      exact ⟨none, rfl, settles_of_both hs hs fun _ hf _ => nthByNext_of_done hf (n + 1)⟩
    · cases hr

theorem lasting_nth (hs : c.Strides) (hb : c.InBounds) (n : Nat) (w : W) :
    Lasting (c.nth · n w) := by
  intro fuel x (h : c.nth fuel n w = some x)
  rw [nth] at h
  rcases ha : c.advanceBy fuel n w with _ | ⟨p | _ | _, d, v⟩ <;> rw [ha] at h
  · cases h
  · have hc := (crosses_of_advanceBy hs hb ha).settles_advanceBy hs hb
    cases h
    exact settles_of_both hc hc fun fuel hf _ => by simp only [nth, hf]
  · have hc := (crosses_of_advanceBy hs hb ha).settles_advanceBy hs hb
    cases h
    exact settles_nth_false hc
  · have hc := (crosses_of_advanceBy hs hb ha).settles_advanceBy hs hb
    obtain ⟨⟨r, e, u⟩, hn, rfl⟩ := Option.map_eq_some_iff.mp h
    exact settles_nth_true hc (settles_of_step hn)

/-- That there is an element behind `n` others takes `n + 1` steps. -/
theorem settles_nth_iff_crosses (hs : c.Strides) (hb : c.InBounds) {b : Bool} :
    (∃ o, o.isSome = b ∧ Settles (c.nth · n w) (.ok o, e, t)) ↔
      Crosses c (n + 1) w (.ok b, e, t) := by
  simp only [settles_nth_iff hs hb]
  constructor
  · rintro ⟨o, rfl, h⟩
    obtain ⟨fuel, h⟩ := h.comes
    exact crosses_of_nthByNext h
  · exact Crosses.settles_nthByNext

end Nth

/-! ## Searching -/

/-- A counter whose greatest value is `most`, if it has one, can hold `n`. -/
def Fits (most : Option Nat) (n : Nat) : Prop := ∀ b, most = some b → n ≤ b

theorem Fits.mono {most : Option Nat} {m n : Nat} (h : Fits most n) (hm : m ≤ n) : Fits most m :=
  fun b hb => Nat.le_trans hm (h b hb)

theorem fits_none (n : Nat) : Fits none n := nofun

/-- What a search for the elements behind `start` others takes: the steps over these, and the
elements that `same` was asked about. -/
inductive Searches (same : α → Act W Bool) (start : Nat) (c : Cursor W α) (w : W) :
    List (Pace W α) → List (α × Bool) → Option Nat → Cursor W α → W → Prop
  | short {m : List (Pace W α)} {d : Cursor W α} {v : W} (hw : c.Walks m d)
      (hp : Passed start w m (.ok false) v) : Searches same start c w m [] none d v
  | reached {m : List (Pace W α)} {d e : Cursor W α} {v t : W} {l : List (α × Bool)} {x : Step α}
      (hw : c.Walks m d) (hp : Passed start w m (.ok true) v)
      (hs : d.Scans same id v l (.ok x) e t) :
      Searches same start c w m l ((l.findIdx? (·.2)).map (start + ·)) e t

variable {same : α → Act W Bool} {most : Option Nat} {c d e : Cursor W α} {start i : Nat}
  {w v t : W} {m : List (Pace W α)} {l : List (α × Bool)} {r : Option Nat} {x : Step α}

theorem increment_of_fits (h : Fits most (i + 1)) :
    (increment most i : Act W Nat) = Act.done (i + 1) := by
  cases most with
  | none => rfl
  | some b => exact if_pos (h b rfl)

theorem fits_of_increment {j : Nat} (h : increment most i w = (.ok j, v)) :
    Fits most (i + 1) ∧ j = i + 1 ∧ v = w := by
  cases most with
  | none =>
    cases h
    exact ⟨nofun, rfl, rfl⟩
  | some b =>
    by_cases hi : i < b
    · rw [increment, if_pos hi] at h
      cases h
      refine ⟨?_, rfl, rfl⟩
      rintro _ ⟨⟩
      exact hi
    · rw [increment, if_neg hi] at h
      cases h

/-- To pass an element by shifts the position. -/
theorem findIdx?_onward (i : Nat) (a : α) (l : List (α × Bool)) :
    (((a, false) :: l).findIdx? (·.2)).map (i + ·) = (l.findIdx? (·.2)).map (i + 1 + ·) := by
  rw [List.findIdx?_cons, if_neg Bool.false_ne_true, Option.map_map]
  congr 1
  funext j
  exact (Nat.add_right_comm i 1 j).symm

/-- A scan that takes no more elements than can be counted goes through. -/
theorem Scans.consumes_locate (h : c.Scans same id w l (.ok x) e t) (hf : Fits most (i + l.length)) :
    Consumes (locate most same) (fun _ => none) i c w ((l.findIdx? (·.2)).map (i + ·)) e t := by
  generalize hx : Except.ok x = y at h
  induction h generalizing i with
  | ended hs => exact .finished hs
  | panicked | refused => cases hx
  | @decided _ _ _ v u a k hs ha hk =>
    obtain rfl : k = true := hk
    have hi : (increment most i : Act W Nat) = Act.done (i + 1) := increment_of_fits hf
    refine .stopped hs ?_
    simp only [locate, Act.andThen, ha, hi, Act.done, Act.pure_apply, if_true]
    rfl
  | @onward _ _ _ _ v u _ a k l _ hs ha hk _ ih =>
    obtain rfl : k = false := hk
    rw [List.length_cons, Nat.add_comm l.length, ← Nat.add_assoc] at hf
    have hi : (increment most i : Act W Nat) = Act.done (i + 1) :=
      increment_of_fits (hf.mono (Nat.le_add_right _ _))
    rw [findIdx?_onward]
    refine .onward hs ?_ (ih hf hx)
    simp only [locate, Act.andThen, ha, hi, Act.done, Act.pure_apply, Bool.false_eq_true, if_false]

theorem scans_of_consumes_locate (hf : Fits most i)
    (h : Consumes (locate most same) (fun _ => none) i c w r e t) :
    ∃ l x, c.Scans same id w l (.ok x) e t ∧ r = (l.findIdx? (·.2)).map (i + ·) ∧
      Fits most (i + l.length) := by
  induction h with
  | finished hs => exact ⟨[], .done, .ended hs, rfl, hf⟩
  | @stopped i a r c d w v u hs hr =>
    rcases ha : same a v with ⟨p | k, v'⟩ <;> simp only [locate, Act.andThen, ha] at hr
    · cases hr
    rcases hi : increment most i v' with ⟨p | j, u'⟩ <;> simp only [hi, Act.pure_apply] at hr
    · cases hr
    cases k with
    | false => cases hr
    | true =>
      obtain ⟨hf, -, rfl⟩ := fits_of_increment hi
      cases hr
      exact ⟨[(a, true)], .yield a, .decided hs ha rfl, rfl, hf⟩
  | @onward i j a r c d e w v u t hs hr _ ih =>
    rcases ha : same a v with ⟨p | k, v'⟩ <;> simp only [locate, Act.andThen, ha] at hr
    · cases hr
    rcases hi : increment most i v' with ⟨p | j', u'⟩ <;> simp only [hi, Act.pure_apply] at hr
    · cases hr
    cases k with
    | true => cases hr
    | false =>
      obtain ⟨hf, rfl, rfl⟩ := fits_of_increment hi
      cases hr
      obtain ⟨l, x, hl, rfl, hf⟩ := ih hf
      refine ⟨(a, false) :: l, x, .onward hs ha rfl hl, (findIdx?_onward i a l).symm, ?_⟩
      rwa [List.length_cons, Nat.add_comm l.length, ← Nat.add_assoc]

theorem settles_position_iff (hf : Fits most i) :
    Settles (fun fuel => positionFrom most fuel same i c w) (.ok r, e, t) ↔
      ∃ l x, c.Scans same id w l (.ok x) e t ∧ r = (l.findIdx? (·.2)).map (i + ·) ∧
        Fits most (i + l.length) := by
  refine settles_consume_iff.trans ⟨scans_of_consumes_locate hf, ?_⟩
  rintro ⟨l, x, h, rfl, hl⟩
  exact h.consumes_locate hl

/-! ## The whole search -/

theorem searches_of_search {fuel : Nat} (hs : c.Strides) (hb : c.InBounds) (hf : Fits most start)
    (h : search most fuel same start c w = some (.ok r, e, t)) :
    ∃ m l, Searches same start c w m l r e t ∧ Fits most (start + l.length) := by
  cases start with
  | zero =>
    have hp := (lasting_consume _ _ 0 c w) fuel _ h
    obtain ⟨l, x, hl, rfl, hf⟩ := (settles_position_iff hf).mp hp
    exact ⟨[], l, .reached .nil .enough hl, hf⟩
  | succ before =>
    rw [search] at h
    rcases hn : c.nth fuel before w with _ | ⟨p | o, d, v⟩ <;> rw [hn] at h
    · cases h
    · cases h
    · obtain ⟨m, hm, hp⟩ := ((settles_nth_iff_crosses hs hb).mp
        ⟨o, rfl, lasting_nth hs hb before w fuel _ hn⟩).passed
      cases o with
      | none =>
        cases h
        exact ⟨m, [], .short hm hp, hf⟩
      | some a =>
        simp only [increment_of_fits hf, Act.done] at h
        have hp' := (lasting_consume _ _ (before + 1) d v) fuel _ h
        obtain ⟨l, x, hl, rfl, hf⟩ := (settles_position_iff hf).mp hp'
        exact ⟨m, l, .reached hm hp hl, hf⟩

theorem Searches.settles (h : Searches same start c w m l r e t) (hs : c.Strides)
    (hb : c.InBounds) (hf : Fits most (start + l.length)) :
    Settles (fun fuel => search most fuel same start c w) (.ok r, e, t) := by
  have hf₀ : Fits most start := hf.mono (Nat.le_add_right start l.length)
  cases start with
  | zero =>
    cases h with
    | short hw hp => cases hp
    | reached hw hp hx =>
      cases hp
      cases hw
      exact (settles_position_iff hf₀).mpr ⟨l, _, hx, rfl, hf⟩
  | succ before =>
    cases h with
    | short hw hp =>
      obtain ⟨o, ho, hn⟩ := (settles_nth_iff_crosses hs hb).mpr (hw.crosses hp)
      obtain rfl : o = none := Option.not_isSome_iff_eq_none.mp (Bool.eq_false_iff.mp ho)
      exact settles_of_both hn hn fun fuel hf _ => by simp only [search, hf, Except.map]
    | reached hw hp hx =>
      obtain ⟨o, ho, hn⟩ := (settles_nth_iff_crosses hs hb).mpr (hw.crosses hp)
      obtain ⟨a, rfl⟩ := Option.isSome_iff_exists.mp ho
      have hl := (settles_position_iff hf₀).mpr ⟨l, _, hx, rfl, hf⟩
      refine settles_of_both hn hl fun fuel hf hg => ?_
      simp only [search, hf, increment_of_fits hf₀, Act.done]
      exact hg

/-- A search comes back with `r` exactly if it takes what leads to `r` and can count that. -/
theorem settles_search_iff (hs : c.Strides) (hb : c.InBounds) (hf : Fits most start) :
    Settles (fun fuel => search most fuel same start c w) (.ok r, e, t) ↔
      ∃ m l, Searches same start c w m l r e t ∧ Fits most (start + l.length) := by
  constructor
  · intro h
    obtain ⟨fuel, h⟩ := h.comes
    exact searches_of_search hs hb hf h
  · rintro ⟨m, l, h, hl⟩
    exact h.settles hs hb hl

theorem lasting_search (hs : c.Strides) (hb : c.InBounds) (most : Option Nat)
    (same : α → Act W Bool) (start : Nat) (w : W) :
    Lasting fun fuel => search most fuel same start c w := by
  intro fuel x (h : search most fuel same start c w = some x)
  cases start with
  | zero => exact lasting_consume _ _ 0 c w fuel x h
  | succ before =>
    rw [search] at h
    rcases hn : c.nth fuel before w with _ | ⟨p | o, d, v⟩ <;> rw [hn] at h
    · cases h
    · have hn := lasting_nth hs hb before w fuel _ hn
      exact settles_of_both hn hn fun fuel hf _ => by rw [search, hf]; exact h
    · have hn := lasting_nth hs hb before w fuel _ hn
      cases o with
      | none => exact settles_of_both hn hn fun fuel hf _ => by rw [search, hf]; exact h
      | some a =>
        rcases hk : increment most before v with ⟨p | i, u⟩ <;> simp only [hk] at h
        · refine settles_of_both hn hn fun fuel hf _ => ?_
          rw [search, hf]
          simp only [hk, h]
        · have hp := lasting_consume _ _ i d u fuel x h
          refine settles_of_both hn hp fun fuel hf hg => ?_
          rw [search, hf]
          simp only [hk]
          exact hg

/-! ## The stage that leaves elements out -/

section Tail

variable {γ : Type} {f : α → Act W γ} {decides : γ → Bool} {k : List (α × γ)} {n : Nat}
  {y : Except Panic (Step α)}

theorem tail_surrounds : Surrounds (tail 0)
    (Moves.relay (tail 0) fun (a : α) c (w : W) => (.yield a, tail 0 c, w)) :=
  ⟨fun _ _ => rfl, fun _ _ => rfl⟩

theorem settles_step_tail_zero (h : Settles (c.step · w) (y, d, t)) :
    Settles ((tail 0 c).step · w) (y, tail 0 d, t) := by
  refine tail_surrounds.settles h fun e u he => ?_
  rcases y with p | a | _
  · exact settles_step_panic he
  · exact settles_step_yield he
  · exact settles_step_done he

theorem settles_step_tail_zero_iff :
    Settles ((tail 0 c).step · w) (y, e, t) ↔
      ∃ d, Settles (c.step · w) (y, d, t) ∧ e = tail 0 d := by
  constructor
  · intro h
    obtain ⟨fuel, hf⟩ := h.comes
    obtain ⟨z, d, v, hc, -⟩ := tail_surrounds.of_step hf
    cases h.unique (settles_step_tail_zero hc)
    exact ⟨d, hc, rfl⟩
  · rintro ⟨d, h, rfl⟩
    exact settles_step_tail_zero h

theorem scans_tail_zero_iff :
    (tail 0 c).Scans f decides w k y e t ↔ ∃ d, c.Scans f decides w k y d t ∧ e = tail 0 d := by
  constructor
  · intro h
    refine h.simulate (R := fun b c => b = tail 0 c) ?_ rfl
    rintro _ c d w v y rfl hs
    exact settles_step_tail_zero_iff.mp hs
  · rintro ⟨d, h, rfl⟩
    obtain ⟨_, h, rfl⟩ := h.simulate (R := fun c b => b = tail 0 c) (b := tail 0 c) (by
      rintro c _ d w v y rfl hs
      exact ⟨_, settles_step_tail_zero hs, rfl⟩) rfl
    exact h

/-- What a step comes to when it had to leave elements out first and that came to this. -/
def Lands (d : Cursor W α) (v : W) (z : Except Panic (Step α) × Cursor W α × W) :
    Except Panic Bool → Prop
  | .ok true => Settles ((tail 0 d).step · v) z
  | .ok false => z = (.ok .done, tail 0 d, v)
  | .error p => z = (.error p, tail 0 d, v)

variable {z : Except Panic (Step α) × Cursor W α × W} {b : Except Panic Bool}

theorem crosses_of_step_tail {fuel : Nat} (hs : c.Strides) (hb : c.InBounds)
    (h : (tail n c).step fuel w = some z) : ∃ b d v, Crosses c n w (b, d, v) ∧ d.Lands v z b := by
  induction fuel generalizing n c w with
  | zero => cases h
  | succ fuel ih =>
    cases n with
    | zero => exact ⟨.ok true, c, w, .here, settles_of_step h⟩
    | succ n =>
      have ha := hs.agrees (n + 1) w
      rw [step, tick_tail_succ] at h
      rcases hk : c.skip (n + 1) w with ⟨m | b | p, d, v⟩ <;> rw [hk] at h ha
      · have hd := becomes_of_skip hk
        obtain ⟨b, e, u, hc, hz⟩ := ih (hd.strides hs) (hd.inBounds hb) h
        rcases ha with ⟨ht, rfl⟩ | ⟨a, ht, hm⟩
        · exact ⟨b, e, u, .silent ht hc, hz⟩
        · cases hm
          exact ⟨b, e, u, .yield ht hc, hz⟩
      · have hc := hs.crosses hb hk
        cases b with
        | true => exact ⟨.ok true, d, v, hc, settles_of_step h⟩
        | false =>
          cases h
          exact ⟨.ok false, d, v, hc, rfl⟩
      · cases h
        exact ⟨.error p, d, v, .panic ha.2, rfl⟩

theorem settles_step_tail {fuel : Nat} (hs : c.Strides) (h : c.advanceBy fuel n w = some (b, d, v))
    (hz : d.Lands v z b) : Settles ((tail n c).step · w) z := by
  induction fuel generalizing n c w with
  | zero => cases h
  | succ fuel ih =>
    rw [advanceBy] at h
    cases n with
    | zero =>
      rw [hs.skip_zero] at h
      cases h
      exact hz
    | succ n =>
      have ht := tick_tail_succ n c w
      rcases hk : c.skip (n + 1) w with ⟨m | b | p, e, u⟩ <;> rw [hk] at h ht
      · exact settles_step_silent ht (ih ((becomes_of_skip hk).strides hs) h)
      · cases h
        cases b with
        | true => exact settles_step_silent ht hz
        | false =>
          obtain rfl : z = _ := hz
          exact settles_step_done ht
      · cases h
        obtain rfl : z = _ := hz
        exact settles_step_panic ht

theorem settles_step_tail_iff (hs : c.Strides) (hb : c.InBounds) :
    Settles ((tail n c).step · w) z ↔ ∃ b d v, Crosses c n w (b, d, v) ∧ d.Lands v z b := by
  constructor
  · intro h
    obtain ⟨fuel, h⟩ := h.comes
    exact crosses_of_step_tail hs hb h
  · rintro ⟨b, d, v, hc, hz⟩
    obtain ⟨fuel, ha⟩ := (hc.settles_advanceBy hs hb).comes
    exact settles_step_tail hs ha hz

/-- A scan behind that stage is a scan of what it leads to. -/
theorem Crosses.scans_tail (hs : c.Strides) (hb : c.InBounds) (hc : Crosses c n w (.ok true, d, v))
    (h : d.Scans f decides v k y e t) : (tail n c).Scans f decides w k y (tail 0 e) t := by
  obtain ⟨z, hz, hk⟩ := (scans_tail_zero_iff.mpr ⟨e, h, rfl⟩).begins
  exact hk _ _ ((settles_step_tail_iff hs hb).mpr ⟨_, d, v, hc, hz⟩)

theorem scans_of_scans_tail {x : Step α} (hs : c.Strides) (hb : c.InBounds)
    (h : (tail n c).Scans f decides w k (.ok x) e t) :
    (∃ d, Crosses c n w (.ok false, d, t) ∧ k = []) ∨
      ∃ d v e', Crosses c n w (.ok true, d, v) ∧ d.Scans f decides v k (.ok x) e' t := by
  obtain ⟨z, hz, hk⟩ := h.begins
  obtain ⟨b, d, v, hc, hl⟩ := (settles_step_tail_iff hs hb).mp hz
  rcases b with p | _ | _
  · obtain rfl : z = _ := hl
    cases h.of_panic hz
  · obtain rfl : z = _ := hl
    obtain ⟨he, -, -, rfl⟩ := h.of_done hz
    exact .inl ⟨d, hc, he⟩
  · obtain ⟨e', hd, -⟩ := scans_tail_zero_iff.mp (hk _ _ hl)
    exact .inr ⟨d, v, e', hc, hd⟩

/-- To search behind `n` elements is to search the rest and to add `n` to the position. -/
theorem settles_search_tail_iff (hs : c.Strides) (hb : c.InBounds) :
    (∃ e, Settles (fun fuel => search none fuel same n c w) (.ok r, e, t)) ↔
      ∃ r₀ e, Settles (fun fuel => search none fuel same 0 (tail n c) w) (.ok r₀, e, t) ∧
        r = r₀.map (n + ·) := by
  have hst : (tail n c).Strides := trivial
  have hbt : (tail n c).InBounds := hb
  simp only [settles_search_iff hs hb (fits_none _), settles_search_iff hst hbt (fits_none _),
    fits_none, and_true]
  constructor
  · rintro ⟨e, m, l, h⟩
    cases h with
    | short hw hp =>
      have hz := (settles_step_tail_iff hs hb).mpr ⟨_, _, _, hw.crosses hp, rfl⟩
      exact ⟨none, _, ⟨[], [], .reached .nil .enough (.ended hz)⟩, rfl⟩
    | reached hw hp hx =>
      refine ⟨_, _, ⟨[], l, .reached .nil .enough ((hw.crosses hp).scans_tail hs hb hx)⟩, ?_⟩
      simp only [Nat.zero_add, Option.map_id']
  · rintro ⟨r₀, e, ⟨m, l, h⟩, rfl⟩
    cases h with
    | short _ hp => cases hp
    | reached hw hp hx =>
      cases hp
      cases hw
      simp only [Nat.zero_add, Option.map_id']
      rcases scans_of_scans_tail hs hb hx with ⟨d, hc, rfl⟩ | ⟨d, v, e', hc, hd⟩
      · obtain ⟨m, hw, hp⟩ := hc.passed
        exact ⟨d, m, [], .short hw hp⟩
      · obtain ⟨m, hw, hp⟩ := hc.passed
        exact ⟨e', m, l, .reached hw hp hd⟩

end Tail

end Cursor

/-! ## What a search finds -/

theorem Passed.length {n : Nat} {w v : W} {m : List (Pace W α)} (h : Passed n w m (.ok true) v) :
    m.length = n ∧ (m.filterMap Pace.element).length = n := by
  generalize hr : Except.ok true = r at h
  induction h with
  | enough => exact ⟨rfl, rfl⟩
  | more _ ih =>
    obtain ⟨hl, he⟩ := ih hr
    exact ⟨congrArg (· + 1) hl, congrArg (· + 1) he⟩
  | short | panicked => cases hr

theorem Passed.length_lt {n : Nat} {w v : W} {m : List (Pace W α)}
    (h : Passed n w m (.ok false) v) : (m.filterMap Pace.element).length < n := by
  generalize hr : Except.ok false = r at h
  induction h with
  | more _ ih => exact Nat.succ_lt_succ (ih hr)
  | short => exact Nat.succ_pos _
  | enough | panicked => cases hr

namespace Cursor

variable {same : α → Act W Bool} {c e : Cursor W α} {start i : Nat} {w t : W}
  {m : List (Pace W α)} {l : List (α × Bool)} {r : Option Nat}

/-- A hit at position `i` takes `i + 1` elements. -/
theorem Searches.taken (h : Searches same start c w m l (some i) e t) :
    start ≤ i ∧ m.length + l.length = i + 1 := by
  generalize hr : some i = r at h
  cases h with
  | short => cases hr
  | reached hw hp hs =>
    obtain ⟨j, hj, rfl⟩ := Option.map_eq_some_iff.mp hr.symm
    obtain ⟨_, -, hs⟩ := hs.steps
    have hl := (hs.stop j hj).1
    have hm := hp.length.1
    omega

/-- The elements that a search took, those that it left out included. -/
def elements (m : List (Pace W α)) (l : List (α × Bool)) : List α :=
  m.filterMap Pace.element ++ l.map Prod.fst

/-- A search finds the least position from `start` on for which it was told so. -/
theorem Searches.least (h : Searches same start c w m l r e t) (i : Nat) :
    r = some i ↔ IsLeast {j | start ≤ j ∧ ∃ b, l[j - start]? = some (b, true)} i := by
  cases h with
  | short hw hp =>
    constructor
    · nofun
    · rintro ⟨⟨-, b, hb⟩, -⟩
      cases hb
  | reached hw hp hs =>
    have hl : ∀ k, (∃ b, l[k]? = some (b, true)) ↔ ∃ hk : k < l.length, l[k].2 = true := by
      intro k
      constructor
      · rintro ⟨b, hb⟩
        obtain ⟨hk, hb⟩ := List.getElem?_eq_some_iff.mp hb
        exact ⟨hk, congrArg Prod.snd hb⟩
      · rintro ⟨hk, hb⟩
        exact ⟨l[k].1, List.getElem?_eq_some_iff.mpr ⟨hk, Prod.ext rfl hb⟩⟩
    simp only [hl, Option.map_eq_some_iff]
    constructor
    · rintro ⟨k, hk, rfl⟩
      obtain ⟨hk, hy, hn⟩ := List.findIdx?_eq_some_iff_getElem.mp hk
      constructor
      · simp only [Set.mem_ofPred_eq, Nat.add_sub_cancel_left]
        exact ⟨Nat.le_add_right start k, hk, hy⟩
      · rintro j ⟨hj, _, hf⟩
        by_contra hlt
        exact hn (j - start) (by omega) hf
    · rintro ⟨⟨hi, hk, hy⟩, hle⟩
      refine ⟨i - start, List.findIdx?_eq_some_iff_getElem.mpr ⟨hk, hy, fun j hj hp => ?_⟩,
        Nat.add_sub_cancel' hi⟩
      have hij : i ≤ start + j := by
        apply hle
        simp only [Set.mem_ofPred_eq, Nat.add_sub_cancel_left]
        exact ⟨Nat.le_add_right start j, by omega, hp⟩
      omega

/-- Where the answers have no effects, they can be had from the elements that the search took. -/
theorem Searches.told_iff {p : α → Bool} {j : Nat}
    (h : Searches (fun b => pure (p b)) start c w m l r e t) (hj : start ≤ j) :
    (∃ b, l[j - start]? = some (b, true)) ↔ ∃ b, (elements m l)[j]? = some b ∧ p b = true := by
  cases h with
  | short hw hp =>
    have hm := hp.length_lt
    have he : (elements m [])[j]? = none := by
      rw [elements, List.map_nil, List.append_nil, List.getElem?_eq_none (by omega)]
    simp [he]
  | reached hw hp hs =>
    have he : (elements m l)[j]? = (l[j - start]?).map Prod.fst := by
      rw [elements, List.getElem?_append_right (by rw [hp.length.2]; exact hj), hp.length.2,
        List.getElem?_map]
    rw [he]
    rcases hy : l[j - start]? with _ | ⟨b, hit⟩
    · simp
    · have ha : hit = p b := hs.answers _ (List.mem_of_getElem? hy)
      simp [ha]

end Cursor

end PullStream
