import PullStream.Proofs.Cursor.Scan
import PullStream.Stream.Consume

/-!
# Visitors

A consuming operation shows the elements of one session to a visitor. `Consumes` is such a run, step
by step; for the visitors that call one function with each element and ask its answer whether to stop
it is a scan, and what the operation returns is read off the list of the answers.
-/

set_option autoImplicit false

namespace PullStream

variable {W α β γ ρ ε : Type}

namespace Cursor

/-- A visitor is shown elements, each pulled by one whole step, until it answers or there are no
more. -/
inductive Consumes (visit : β → α → Act W (Verdict β ρ)) (finish : β → ρ) :
    β → Cursor W α → W → ρ → Cursor W α → W → Prop
  | finished {b : β} {c d : Cursor W α} {w v : W} (hs : Settles (c.step · w) (.ok .done, d, v)) :
      Consumes visit finish b c w (finish b) d v
  | stopped {b : β} {a : α} {r : ρ} {c d : Cursor W α} {w v u : W}
      (hs : Settles (c.step · w) (.ok (.yield a), d, v)) (hv : visit b a v = (.ok (.stop r), u)) :
      Consumes visit finish b c w r d u
  | onward {b b' : β} {a : α} {r : ρ} {c d e : Cursor W α} {w v u t : W}
      (hs : Settles (c.step · w) (.ok (.yield a), d, v)) (hv : visit b a v = (.ok (.more b'), u))
      (h : Consumes visit finish b' d u r e t) : Consumes visit finish b c w r e t

section Visitor

variable {visit : β → α → Act W (Verdict β ρ)} {finish : β → ρ} {b : β} {c d e : Cursor W α}
  {w v t : W} {r : ρ}

theorem Consumes.of_silent (ht : c.tick w = (.silent, d, v))
    (h : Consumes visit finish b d v r e t) : Consumes visit finish b c w r e t := by
  cases h with
  | finished hs => exact .finished (settles_step_silent ht hs)
  | stopped hs hv => exact .stopped (settles_step_silent ht hs) hv
  | onward hs hv h => exact .onward (settles_step_silent ht hs) hv h

theorem consumes_of_consume {fuel : Nat}
    (h : c.consume (fun b a => .ofAct (visit b a)) finish fuel b w = some (.ok r, e, t)) :
    Consumes visit finish b c w r e t := by
  induction fuel generalizing b c w with
  | zero => cases h
  | succ fuel ih =>
    rw [consume] at h
    rcases ht : c.tick w with ⟨_ | a | _ | p, d, v⟩ <;> rw [ht] at h
    · exact (ih h).of_silent ht
    · have hs := settles_step_yield ht
      rcases hv : visit b a v with ⟨p | b' | r', u⟩ <;> simp only [Run.ofAct, hv] at h
      · cases h
      · exact .onward hs hv (ih h)
      · cases h
        exact .stopped hs hv
    · cases h
      exact .finished (settles_step_done ht)
    · cases h

theorem lasting_consume (visit : β → α → Run W (Verdict β ρ)) (finish : β → ρ) (b : β)
    (c : Cursor W α) (w : W) : Lasting fun fuel => c.consume visit finish fuel b w := by
  intro fuel x (h : c.consume visit finish fuel b w = some x)
  induction fuel generalizing b c w with
  | zero => cases h
  | succ fuel ih =>
    rw [consume] at h
    rcases ht : c.tick w with ⟨_ | a | _ | p, d, v⟩ <;> rw [ht] at h
    · exact settles_of_next (fun _ => by rw [consume, ht]) (ih b d v h)
    · rcases hv : visit b a v with _ | ⟨p | b' | r, u⟩ <;> simp only [hv] at h
      · cases h
      · exact settles_of_first fun _ => by rw [consume, ht]; simp only [hv, h]
      · exact settles_of_next (fun _ => by rw [consume, ht]; simp only [hv]) (ih b' d u h)
      · exact settles_of_first fun _ => by rw [consume, ht]; simp only [hv, h]
    · exact settles_of_first fun _ => by rw [consume, ht]; exact h
    · exact settles_of_first fun _ => by rw [consume, ht]; exact h

/-- A run goes on from the first element as the visitor says. -/
theorem settles_consume_of_yield {visit : β → α → Run W (Verdict β ρ)} {a : α}
    {x : Except Panic ρ × Cursor W α × W} (hs : Settles (c.step · w) (.ok (.yield a), d, v))
    (hx : ∀ (f : Cursor W α) (u : W), f.tick u = (.yield a, d, v) →
      Settles (fun fuel => f.consume visit finish fuel b u) x) :
    Settles (fun fuel => c.consume visit finish fuel b w) x := by
  obtain ⟨fuel, h⟩ := hs.comes
  clear hs
  induction fuel generalizing c w with
  | zero => cases h
  | succ fuel ih =>
    rw [step] at h
    rcases ht : c.tick w with ⟨_ | a | _ | p, f, u⟩ <;> rw [ht] at h
    · exact settles_of_next (fun _ => by rw [consume, ht]) (ih h)
    · cases h
      exact hx c w ht
    · cases h
    · cases h

theorem settles_consume_of_done {visit : β → α → Run W (Verdict β ρ)}
    (hs : Settles (c.step · w) (.ok .done, d, v)) :
    Settles (fun fuel => c.consume visit finish fuel b w) (.ok (finish b), d, v) := by
  obtain ⟨fuel, h⟩ := hs.comes
  clear hs
  induction fuel generalizing c w with
  | zero => cases h
  | succ fuel ih =>
    rw [step] at h
    rcases ht : c.tick w with ⟨_ | a | _ | p, f, u⟩ <;> rw [ht] at h
    · exact settles_of_next (fun _ => by rw [consume, ht]) (ih h)
    · cases h
    · cases h
      exact settles_of_first fun _ => by rw [consume, ht]
    · cases h

theorem settles_consume_of_panic {visit : β → α → Run W (Verdict β ρ)} {p : Panic}
    (hs : Settles (c.step · w) (.error p, d, v)) :
    Settles (fun fuel => c.consume visit finish fuel b w) (.error p, d, v) := by
  obtain ⟨fuel, h⟩ := hs.comes
  clear hs
  induction fuel generalizing c w with
  | zero => cases h
  | succ fuel ih =>
    rw [step] at h
    rcases ht : c.tick w with ⟨_ | a | _ | q, f, u⟩ <;> rw [ht] at h
    · exact settles_of_next (fun _ => by rw [consume, ht]) (ih h)
    · cases h
    · cases h
    · cases h
      exact settles_of_first fun _ => by rw [consume, ht]

theorem Consumes.settles (h : Consumes visit finish b c w r e t) :
    Settles (fun fuel => c.consume (fun b a => .ofAct (visit b a)) finish fuel b w)
      (.ok r, e, t) := by
  induction h with
  | finished hs => exact settles_consume_of_done hs
  | stopped hs hv =>
    exact settles_consume_of_yield hs fun f u ht =>
      settles_of_first fun _ => by rw [consume, ht]; simp only [Run.ofAct, hv]
  | onward hs hv _ ih =>
    exact settles_consume_of_yield hs fun f u ht =>
      settles_of_next (fun _ => by rw [consume, ht]; simp only [Run.ofAct, hv]) ih

theorem settles_consume_iff :
    Settles (fun fuel => c.consume (fun b a => .ofAct (visit b a)) finish fuel b w) (.ok r, e, t) ↔
      Consumes visit finish b c w r e t := by
  constructor
  · intro h
    obtain ⟨fuel, h⟩ := h.comes
    exact consumes_of_consume h
  · exact Consumes.settles

end Visitor

section Asking

variable {f : α → Act W γ} {decides : γ → Bool} {visit : β → α → Act W (Verdict β ρ)}
  {answer : β → α → γ → ρ} {next : β → β} {finish : β → ρ} {b : β} {c e : Cursor W α} {w t : W}
  {r : ρ}

/-- What is returned for a list of elements and answers: what the first answer that decides leads
to. -/
def conclude (decides : γ → Bool) (answer : β → α → γ → ρ) (next : β → β) (finish : β → ρ) :
    β → List (α × γ) → ρ
  | b, [] => finish b
  | b, (a, k) :: l =>
    if decides k then answer b a k else conclude decides answer next finish (next b) l

/-- A visitor that only looks at what `f` says about an element makes a scan. -/
theorem consumes_iff_scans (hv : ∀ b a, visit b a = (f a).andThen fun k =>
      pure (if decides k then .stop (answer b a k) else .more (next b))) :
    Consumes visit finish b c w r e t ↔
      ∃ l x, Scans f decides c w l (.ok x) e t ∧ r = conclude decides answer next finish b l := by
  constructor
  · intro h
    induction h with
    | finished hs => exact ⟨[], _, .ended hs, rfl⟩
    | @stopped b a r c d w v u hs hr =>
      rw [hv, Act.andThen] at hr
      rcases hf : f a v with ⟨p | k, u'⟩ <;> rw [hf] at hr
      · cases hr
      · cases hk : decides k <;> simp only [hk, Bool.false_eq_true, if_false, if_true] at hr
        · cases hr
        · cases hr
          exact ⟨[(a, k)], _, .decided hs hf hk, by simp only [conclude, hk, if_true]⟩
    | @onward b b' a r c d e w v u t hs hr _ ih =>
      rw [hv, Act.andThen] at hr
      rcases hf : f a v with ⟨p | k, u'⟩ <;> rw [hf] at hr
      · cases hr
      · cases hk : decides k <;> simp only [hk, Bool.false_eq_true, if_false, if_true] at hr
        · cases hr
          obtain ⟨l, x, hl, rfl⟩ := ih
          refine ⟨(a, k) :: l, x, .onward hs hf hk hl, ?_⟩
          simp only [conclude, hk, Bool.false_eq_true, if_false]
        · cases hr
  · rintro ⟨l, x, h, rfl⟩
    generalize hx : Except.ok x = y at h
    induction h generalizing b with
    | ended hs => exact .finished hs
    | panicked | refused => cases hx
    | @decided _ _ _ v u a k hs hf hk =>
      simp only [conclude, hk, if_true]
      exact .stopped hs (by simp only [hv, Act.andThen, hf, hk, if_true, Act.pure_apply])
    | @onward _ _ _ _ v u _ a k _ _ hs hf hk _ ih =>
      simp only [conclude, hk, Bool.false_eq_true, if_false]
      refine .onward hs ?_ (ih hx)
      simp only [hv, Act.andThen, hf, hk, Bool.false_eq_true, if_false, Act.pure_apply]

end Asking

section Reducing

variable {combine : β → α → Act W (Except ε β)} {b : β} {c e : Cursor W α} {w t : W}
  {l : List (α × Except ε β)} {r : Except ε β}

/-- The answer refuses the element. -/
def refuses {ε β : Type} : Except ε β → Bool
  | .ok _ => false
  | .error _ => true

/-- A fold from the left until an element is refused: the elements with what `combine` made of what
had been made of those before. -/
inductive Reduces (combine : β → α → Act W (Except ε β)) :
    β → Cursor W α → W → List (α × Except ε β) → Except ε β → Cursor W α → W → Prop
  | ended {b : β} {c d : Cursor W α} {w v : W} (hs : Settles (c.step · w) (.ok .done, d, v)) :
      Reduces combine b c w [] (.ok b) d v
  | refused {b : β} {a : α} {x : ε} {c d : Cursor W α} {w v u : W}
      (hs : Settles (c.step · w) (.ok (.yield a), d, v))
      (hf : combine b a v = (.ok (.error x), u)) :
      Reduces combine b c w [(a, .error x)] (.error x) d u
  | onward {b b' : β} {a : α} {l : List (α × Except ε β)} {r : Except ε β} {c d e : Cursor W α}
      {w v u t : W} (hs : Settles (c.step · w) (.ok (.yield a), d, v))
      (hf : combine b a v = (.ok (.ok b'), u)) (h : Reduces combine b' d u l r e t) :
      Reduces combine b c w ((a, .ok b') :: l) r e t

theorem consumes_iff_reduces {visit : β → α → Act W (Verdict β (Except ε β))}
    (hv : ∀ b a, visit b a = (combine b a).andThen fun
      | .ok b => pure (.more b)
      | .error x => pure (.stop (.error x))) :
    Consumes visit .ok b c w r e t ↔ ∃ l, Reduces combine b c w l r e t := by
  constructor
  · intro h
    induction h with
    | finished hs => exact ⟨[], .ended hs⟩
    | @stopped b a r c d w v u hs hr =>
      rw [hv, Act.andThen] at hr
      rcases hf : combine b a v with ⟨p | x | b', u'⟩ <;> rw [hf] at hr <;> cases hr
      exact ⟨[(a, .error x)], .refused hs hf⟩
    | @onward b b' a r c d e w v u t hs hr _ ih =>
      rw [hv, Act.andThen] at hr
      rcases hf : combine b a v with ⟨p | x | b', u'⟩ <;> rw [hf] at hr <;> cases hr
      obtain ⟨l, hl⟩ := ih
      exact ⟨(a, .ok b') :: l, .onward hs hf hl⟩
  · rintro ⟨l, h⟩
    induction h with
    | ended hs => exact .finished hs
    | refused hs hf => exact .stopped hs (by rw [hv, Act.andThen, hf]; rfl)
    | onward hs hf _ ih => exact .onward hs (by rw [hv, Act.andThen, hf]; rfl) ih

theorem Reduces.steps (h : Reduces combine b c w l r e t) :
    ∃ m, c.Walks m e ∧ Shown refuses m l := by
  induction h with
  | ended hs => exact ⟨[⟨_, _, _⟩], .cons hs .nil, .ended⟩
  | @refused _ a _ _ _ w v _ hs hf => exact ⟨[⟨w, _, v⟩], .cons hs .nil, .decided rfl⟩
  | @onward _ _ a _ _ _ _ _ w v _ _ hs hf _ ih =>
    obtain ⟨m, hm, hl⟩ := ih
    exact ⟨⟨w, _, v⟩ :: m, .cons hs hm, hl.onward rfl⟩

/-- What comes back is what was made last, a refusal unchanged. -/
theorem Reduces.last (h : Reduces combine b c w l r e t) :
    r = (l.getLast?.map Prod.snd).getD (.ok b) := by
  induction h with
  | ended | refused => rfl
  | @onward b b' a l r c d e w v u t hs hf _ ih =>
    rw [ih]
    cases l with
    | nil => rfl
    | cons y l => rw [List.getLast?_cons_cons, List.getLast?_cons]; rfl

/-- Where `combine` has no effect, this is the fold over the list of elements. -/
theorem Reduces.foldlM {g : β → α → Except ε β}
    (h : Reduces (fun b a => pure (g b a)) b c w l r e t) : r = (l.map Prod.fst).foldlM g b := by
  generalize hg : (fun b a => (pure (g b a) : Act W (Except ε β))) = f at h
  induction h with
  | ended => rfl
  | @refused b a x _ _ _ v _ _ hf =>
    subst hg
    obtain ⟨hx, -⟩ := Prod.mk.inj hf
    rw [List.map_cons, List.foldlM_cons, Except.ok.inj hx]
    rfl
  | @onward b b' a l _ _ _ _ _ v _ _ _ hf _ ih =>
    obtain ⟨hx, -⟩ := Prod.mk.inj ((congrFun (congrFun (congrFun hg b) a) v).trans hf)
    rw [List.map_cons, List.foldlM_cons, Except.ok.inj hx]
    exact ih

end Reducing

end Cursor

namespace Stream

variable {s : Stream W α} {w w' : W}

theorem settles_session_iff
    (use : Nat → Cursor W α → W → Option (Except Panic ρ × Cursor W α × W)) {r : ρ}
    (hl : ∀ {c v}, s.cursor w = (.ok c, v) → Lasting (use · c v)) :
    Settles (fun fuel => s.session (use fuel) w) (.ok r, w') ↔
      ∃ c v e, s.cursor w = (.ok c, v) ∧ Settles (use · c v) (.ok r, e, w') := by
  unfold session
  rcases hc : s.cursor w with ⟨p | c, v⟩
  · constructor
    · intro h
      obtain ⟨_, h⟩ := h.comes
      cases h
    · rintro ⟨c, u, e, h, -⟩
      cases h
  · constructor
    · intro h
      obtain ⟨⟨x, e, u⟩, hu, hx⟩ := ((hl hc).settles_map_iff _ _).mp h
      cases hx
      exact ⟨c, v, e, rfl, hu⟩
    · rintro ⟨_, _, e, h, hu⟩
      cases h
      exact ((hl hc).settles_map_iff _ _).mpr ⟨_, hu, rfl⟩

theorem settles_consume_iff {visit : β → α → Act W (Verdict β ρ)} {finish : β → ρ} {b : β} {r : ρ} :
    Settles (fun fuel => s.consume fuel (fun b a => .ofAct (visit b a)) finish b w) (.ok r, w') ↔
      ∃ c v e, s.cursor w = (.ok c, v) ∧ c.Consumes visit finish b v r e w' := by
  rw [← exists_congr fun c => exists_congr fun v => exists_congr fun e =>
    and_congr_right fun _ => Cursor.settles_consume_iff]
  exact settles_session_iff (fun fuel => Cursor.consume (fun b a => .ofAct (visit b a)) finish fuel b)
    fun _ => Cursor.lasting_consume _ finish b _ _

/-- One session that scans, with the steps it takes. -/
def Scans (s : Stream W α) (f : α → Act W γ) (decides : γ → Bool) (w : W) (l : List (α × γ))
    (x : Step α) (w' : W) : Prop :=
  ∃ c v m e, s.cursor w = (.ok c, v) ∧ c.Scans f decides v l (.ok x) e w' ∧ c.Walks m e ∧
    Shown decides m l

theorem scans_iff {f : α → Act W γ} {decides : γ → Bool} {l : List (α × γ)} {x : Step α} :
    s.Scans f decides w l x w' ↔
      ∃ c v e, s.cursor w = (.ok c, v) ∧ c.Scans f decides v l (.ok x) e w' := by
  constructor
  · rintro ⟨c, v, -, e, hc, hl, -⟩
    exact ⟨c, v, e, hc, hl⟩
  · rintro ⟨c, v, e, hc, hl⟩
    obtain ⟨m, hm, hn⟩ := hl.steps
    exact ⟨c, v, m, e, hc, hl, hm, hn⟩

theorem settles_scanning_iff {f : α → Act W γ} {decides : γ → Bool}
    {visit : β → α → Act W (Verdict β ρ)} {answer : β → α → γ → ρ} {next : β → β} {finish : β → ρ}
    {b : β} {r : ρ} (hv : ∀ b a, visit b a = (f a).andThen fun k =>
      pure (if decides k then .stop (answer b a k) else .more (next b))) :
    Settles (fun fuel => s.consume fuel (fun b a => .ofAct (visit b a)) finish b w) (.ok r, w') ↔
      ∃ l x, s.Scans f decides w l x w' ∧
        r = Cursor.conclude decides answer next finish b l := by
  simp only [settles_consume_iff, Cursor.consumes_iff_scans hv, scans_iff]
  constructor
  · rintro ⟨c, v, e, hc, l, x, hl, hr⟩
    exact ⟨l, x, ⟨c, v, e, hc, hl⟩, hr⟩
  · rintro ⟨l, x, ⟨c, v, e, hc, hl⟩, hr⟩
    exact ⟨c, v, e, hc, l, x, hl, hr⟩

/-- One session that folds until an element is refused, with the steps it takes. -/
def Reduces (s : Stream W α) (combine : β → α → Act W (Except ε β)) (b : β) (w : W)
    (l : List (α × Except ε β)) (r : Except ε β) (w' : W) : Prop :=
  ∃ c v m e, s.cursor w = (.ok c, v) ∧ c.Reduces combine b v l r e w' ∧ c.Walks m e ∧
    Shown Cursor.refuses m l

theorem settles_reducing_iff {combine : β → α → Act W (Except ε β)} {b : β} {r : Except ε β} :
    Settles (s.tryReduceWith · b combine w) (.ok r, w') ↔ ∃ l, s.Reduces combine b w l r w' := by
  refine settles_consume_iff.trans ?_
  constructor
  · rintro ⟨c, v, e, hc, h⟩
    obtain ⟨l, hl⟩ := (Cursor.consumes_iff_reduces fun _ _ => rfl).mp h
    obtain ⟨m, hm, hn⟩ := hl.steps
    exact ⟨l, c, v, m, e, hc, hl, hm, hn⟩
  · rintro ⟨l, c, v, m, e, hc, hl, -⟩
    exact ⟨c, v, e, hc, (Cursor.consumes_iff_reduces fun _ _ => rfl).mpr ⟨l, hl⟩⟩

end Stream

end PullStream
