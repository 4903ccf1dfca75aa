import PullStream.Proofs.Demand.Chain

/-!
# Arrival

When something is to be made of the elements to come, a chain comes to its next element in finitely
many moves, however many elements it has to discard for it. A chain that never makes anything of an
endless feed does not come back, so this much is all that can be said of every chain.
-/

set_option autoImplicit false

namespace PullStream

open Relation Cursor Moves

variable {W α β : Type} {aside : W → W → Prop}

/-- A step comes back. -/
def Cursor.Arrives (c : Cursor W α) (w : W) : Prop := ∃ r, Settles (c.step · w) r

namespace Cursor

theorem Arrives.of_silent {c d : Cursor W α} {w v : W} (h : c.tick w = (.silent, d, v))
    (hd : d.Arrives v) : c.Arrives w := by
  obtain ⟨r, hr⟩ := hd
  exact ⟨r, settles_step_silent h hr⟩

theorem Arrives.of_shown {c : Cursor W α} {w : W} (h : (c.tick w).1 ≠ .silent) : c.Arrives w := by
  rcases ht : c.tick w with ⟨_ | a | _ | p, d, v⟩
  · rw [ht] at h
    contradiction
  · exact ⟨_, settles_step_yield ht⟩
  · exact ⟨_, settles_step_done ht⟩
  · exact ⟨_, settles_step_panic ht⟩

theorem Arrives.of_step {c : Cursor W α} {fuel : Nat} {w : W}
    {r : Except Panic (Step α) × Cursor W α × W} (h : c.step fuel w = some r) : c.Arrives w := by
  induction fuel generalizing c w with
  | zero => cases h
  | succ fuel ih =>
    rw [step] at h
    rcases ht : c.tick w with ⟨_ | a | _ | p, d, v⟩
    · rw [ht] at h
      exact .of_silent ht (ih h)
    · exact .of_shown (by rw [ht]; nofun)
    · exact .of_shown (by rw [ht]; nofun)
    · exact .of_shown (by rw [ht]; nofun)

theorem Arrives.tail_zero {c : Cursor W α} {fuel : Nat} {w : W}
    {r : Except Panic (Step α) × Cursor W α × W} (h : c.step fuel w = some r) :
    (tail 0 c).Arrives w := by
  induction fuel generalizing c w with
  | zero => cases h
  | succ fuel ih =>
    rw [step] at h
    have hz := tick_tail_zero c w
    rcases ht : c.tick w with ⟨_ | a | _ | p, d, v⟩ <;> rw [ht] at h hz
    · exact .of_silent hz (ih h)
    · exact .of_shown (by rw [hz]; nofun)
    · exact .of_shown (by rw [hz]; nofun)
    · exact .of_shown (by rw [hz]; nofun)

end Cursor

section Chains

variable {γ : Type} {f : Feed aside β} {c : Cursor W β} {d : Cursor W α} {g : List β → List α}
  {i k m : Nat} {w v : W}

/-- A tail right around the feed: its moves are those of the feed's own skip. -/
theorem Feed.arrives_skipping {fuel n : Nat} {r : Except Panic Bool × Cursor W β × W}
    (hc : f.At i c w) (h : c.advanceBy fuel n w = some r) : (tail n c).Arrives w := by
  induction fuel generalizing c n i w with
  | zero => cases h
  | succ fuel ih =>
    cases n with
    | zero =>
      obtain ⟨fuel', r', hs⟩ := f.comes hc
      exact .tail_zero hs
    | succ n =>
      rw [advanceBy] at h
      have hs := f.skips hc (n + 1)
      have ht := tick_tail_succ n c w
      rcases hk : c.skip (n + 1) w with ⟨n' | (_ | _) | p, d, v⟩ <;> rw [hk] at h hs ht
      · obtain ⟨j, -, -, hd⟩ := hs
        exact .of_silent ht (ih hd h)
      · exact .of_shown (by rw [ht]; nofun)
      · obtain ⟨fuel', r', hd⟩ := f.comes hs.2
        exact .of_silent ht (.tail_zero hd)
      · exact hs.elim

/-- A sieve passes on what it is shown or goes on behind it. -/
theorem Sieve.arrives_of_step (S : Sieve aside α γ) {s : S.σ} {fuel : Nat}
    {r : Except Panic (Step α) × Cursor W α × W} (hk : S.careful = true → 0 < k)
    (h : Chained aside c k d g) (hc : f.At i c w) (ho : S.closed s = false)
    (hs : d.step fuel w = some r)
    (hgo : ∀ a d' v u, r = (.ok (.yield a), d', v) → (S.decide s a).1 = none →
      ReflGen aside v u → (S.around (S.decide s a).2 d').Arrives u) :
    (S.around s d).Arrives w := by
  induction fuel generalizing c d g i w with
  | zero => cases hs
  | succ fuel ih =>
    have hj : S.careful = true → ¬ d.Jumps := fun h' => h.not_jumps (hk h')
    have ha := h.advances hc
    rw [step] at hs
    rcases ht : d.tick w with ⟨_ | a | _ | p, d', v⟩ <;> rw [ht] at ha hs
    · obtain ⟨n, c', g', hm⟩ := ha
      exact .of_silent (S.silent s d w d' v ho hj ht) (ih hm.chained hm.now hs)
    · cases hs
      obtain ⟨u, hv, hu⟩ := S.yield s d w a d' v ho hj ht
      cases hx : (S.decide s a).1 with
      | none =>
        rw [hx] at hu
        exact .of_silent hu (hgo a d' v u rfl hx hv)
      | some x =>
        rw [hx] at hu
        exact .of_shown (by rw [hu]; nofun)
    · exact .of_shown (by rw [S.done s d w d' v ho hj ht]; nofun)
    · exact ha.elim

/-- What is made of the elements to come is made behind those that the element just shown took. -/
theorem Moved.lt_of_ne_nil {n : Nat} {out : List α} {d' : Cursor W α} {c' : Cursor W β}
    {g' : List β → List α} (h : Chained aside c k d g) (hn : g (ahead f.element i n) = [])
    (hm : Moved f i k g (n + 1) out c' d' g' v) (hg : g (ahead f.element i m) ≠ []) :
    ∃ j, m = n + 1 + j ∧ g (ahead f.element i m) = out ++ g' (ahead f.element (i + (n + 1)) j) := by
  have hlt : n < m := by
    by_contra hle
    have hp : g (ahead f.element i m) <+: g (ahead f.element i n) :=
      h.mono (ahead_mono i (Nat.le_of_not_lt hle))
    rw [hn] at hp
    exact hg (List.prefix_nil.mp hp)
  obtain ⟨j, rfl⟩ := Nat.exists_eq_add_of_le hlt
  exact ⟨j, rfl, by rw [Nat.succ_eq_add_one, ahead_add hm.there, hm.makes]⟩

/-- The induction is on how many elements are enough: an element of the inner chain that the sieve
drops leaves fewer of them to go through. -/
theorem Chained.arrives_sieve (S : Sieve aside α γ) (s : S.σ) (hk : S.careful = true → 0 < k)
    (inner : ∀ {c : Cursor W β} {d : Cursor W α} {g : List β → List α} {i m : Nat} {w : W},
      Chained aside c k d g → f.At i c w → g (ahead f.element i m) ≠ [] → d.Arrives w)
    (h : Chained aside c k d g) (hc : f.At i c w) (hm : S.run s (g (ahead f.element i m)) ≠ []) :
    (S.around s d).Arrives w := by
  induction m using Nat.strong_induction_on generalizing s c d g i w with
  | _ m ih =>
    cases ho : S.closed s with
    | true => exact absurd (S.run_closed ho _) hm
    | false =>
      have hg : g (ahead f.element i m) ≠ [] := fun h0 => hm (by rw [h0]; rfl)
      obtain ⟨r, least, hr⟩ := inner h hc hg
      have hs := hr least (Nat.le_refl least)
      apply S.arrives_of_step hk h hc ho hs
      intro a d' v u hy hd hu
      subst hy
      obtain ⟨n, c', g', hn, hv⟩ := h.stepped hc hs
      obtain ⟨j, rfl, hj⟩ := hv.lt_of_ne_nil h hn hg
      rw [hj, List.singleton_append, Sieve.run, ho, hd] at hm
      exact ih j (by omega) (S.decide s a).2 hv.chained (f.kept hv.now hu) hm

theorem Chained.arrives_drain {κ : Type} [eq : DecidableEq κ] {key : Total aside α κ}
    {other : Listed aside α} {bs : List α} {e : Cursor W α} {known : List κ}
    (he : e.Plays (bs.map .yield)) (hq : other.Discreet e)
    (inner : ∀ {c : Cursor W β} {d : Cursor W α} {g : List β → List α} {i m : Nat} {w : W},
      Chained aside c k d g → f.At i c w → g (ahead f.element i m) ≠ [] → d.Arrives w)
    (h : Chained aside c k d g) (hc : f.At i c w)
    (hm : ((g (ahead f.element i m)).filter
      fun a => key.value a ∉ known ++ bs.map key.value) ≠ []) :
    (excludeDrain eq key.run other.stream e known d).Arrives w := by
  generalize hos : bs.map Outcome.yield = os at he
  induction he using Plays.rec_met generalizing bs known w with
  | step e os _ ih =>
    subst hos
    have hw := ih w
    have hd := other.moving hq w
    have ht := tick_excludeDrain eq key.run other.stream e known d w
    rcases he : e.tick w with ⟨_ | b | _ | p, e', v⟩
    all_goals
      rw [he] at hw hd ht
      obtain ⟨hq', hv⟩ := hd
      have hc' := f.kept hc hv
    · obtain ⟨-, hgo⟩ := hw
      exact .of_silent ht (hgo hq' hc' hm rfl)
    · obtain ⟨rest, hbs, -, hgo⟩ := hw
      cases bs with
      | nil => cases hbs
      | cons b bs =>
        cases hbs
        obtain ⟨u, hu, hvu⟩ := key.run_eq b v
        simp only [hu] at ht
        refine .of_silent ht (hgo hq' (f.kept hc' hvu) ?_ rfl)
        simpa only [List.map_cons, List.mem_append, List.mem_cons, or_left_comm, List.cons_append]
          using hm
    · obtain rfl : bs = [] := List.map_eq_nil_iff.mp hw
      rw [List.map_nil, List.append_nil] at hm
      rw [← Sieve.run_without] at hm
      exact .of_silent ht (arrives_sieve (Sieve.without key) known nofun inner h hc' hm)
    · obtain ⟨rest, hbs, -⟩ := hw
      cases bs <;> cases hbs

theorem Chained.arrives (h : Chained aside c k d g) (hc : f.At i c w)
    (hm : g (ahead f.element i m) ≠ []) : d.Arrives w := by
  induction k generalizing α c d g i m w with
  | zero =>
    cases h with
    | here =>
      obtain ⟨fuel, r, hr⟩ := f.comes hc
      exact .of_step hr
  | succ k ih =>
    cases h with
    | skipping n =>
      obtain ⟨fuel, r, hr⟩ := f.leaves hc n
      exact Feed.arrives_skipping hc hr
    | sieve S s hk h => exact arrives_sieve S s hk ih h hc hm
    | drain he hq h => exact arrives_drain he hq ih h hc hm
    | @fresh _ _ _ eq key other d g h =>
      obtain ⟨e, v, he, hp⟩ := other.plays w
      obtain ⟨hq, hv⟩ := other.opening he
      have ht : (excludeFresh eq key.run other.stream d).tick w =
          (.silent, excludeDrain eq key.run other.stream e [] d, v) := by
        simp only [tick_excludeFresh, Moves.opening, he]
      exact .of_silent ht (arrives_drain hp hq ih h (f.kept hc hv) hm)

/-- As many elements as the feed has enough for are yielded in finitely many moves. -/
theorem Chained.taking_settles {n : Nat} (h : Chained aside c k d g) (hc : f.At i c w)
    (hn : n ≤ (g (ahead f.element i m)).length) :
    ∃ r, Settles (fun fuel => d.taking fuel n w) r := by
  induction n generalizing c d g i m w with
  | zero => exact ⟨([], d, w), 0, fun _ _ => rfl⟩
  | succ n ih =>
    have hm : g (ahead f.element i m) ≠ [] := List.ne_nil_of_length_pos (by omega)
    obtain ⟨⟨_ | (a | _), d', v⟩, hs⟩ := h.arrives hc hm
    all_goals
      obtain ⟨least, hl⟩ := hs
      have hst := h.stepped hc (hl least (Nat.le_refl least))
    · exact hst.elim
    · obtain ⟨j, c', g', hj, hv⟩ := hst
      obtain ⟨m, rfl, hg⟩ := hv.lt_of_ne_nil h hj hm
      rw [hg, List.length_append, List.length_singleton] at hn
      obtain ⟨⟨as, r⟩, hr⟩ := ih (m := m) hv.chained hv.now (by omega)
      refine ⟨(a :: as, r), settles_of_both ⟨least, hl⟩ hr fun fuel hd ht => ?_⟩
      rw [Cursor.taking, hd]
      exact congrArg (Option.map _) ht
    · exact absurd (hst m) hm

end Chains

end PullStream
