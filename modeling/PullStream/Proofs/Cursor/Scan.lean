import PullStream.Proofs.Cursor.Walk

/-!
# Scans

A scan pulls the elements of a cursor one after the other, each by one whole step, and calls `f` with
each of them at once, until an answer decides or there is nothing more to ask about. It is what the
consuming operations do that can answer early, what an exclusion does to drain the other stream, and
what it does to find the next element that is not excluded.
-/

set_option autoImplicit false

namespace PullStream

variable {W α γ : Type}

/-- The steps `m` yield the elements of `l`, which stand there with the answers about them. Element
`k` that is the first to decide is the last of `k + 1` steps and the last that is asked about; if
none decides there is one step more than elements. -/
structure Shown (decides : γ → Bool) (m : List (Pace W α)) (l : List (α × γ)) : Prop where
  elements : m.filterMap Pace.element = l.map Prod.fst
  stop : ∀ k, (l.findIdx? fun y => decides y.2) = some k → l.length = k + 1 ∧ m.length = k + 1
  run : (l.findIdx? fun y => decides y.2) = none → m.length = l.length + 1

namespace Shown

variable {decides : γ → Bool} {m : List (Pace W α)} {l : List (α × γ)} {w v : W} {a : α} {k : γ}

theorem ended : Shown decides [(⟨w, .ok .done, v⟩ : Pace W α)] [] where
  elements := rfl
  stop := nofun
  run _ := rfl

theorem decided (hk : decides k) : Shown decides [(⟨w, .ok (.yield a), v⟩ : Pace W α)] [(a, k)] := by
  have h : ([(a, k)].findIdx? fun y => decides y.2) = some 0 := by
    rw [List.findIdx?_cons, if_pos hk]
  refine ⟨rfl, fun i hi => ?_, fun hn => ?_⟩
  · cases h.symm.trans hi
    exact ⟨rfl, rfl⟩
  · cases h.symm.trans hn

theorem onward (h : Shown decides m l) (hk : decides k = false) :
    Shown decides (⟨w, .ok (.yield a), v⟩ :: m) ((a, k) :: l) := by
  have hf : (((a, k) :: l).findIdx? fun y => decides y.2) =
      (l.findIdx? fun y => decides y.2).map (· + 1) := by
    rw [List.findIdx?_cons, if_neg (Bool.eq_false_iff.mp hk)]
  refine ⟨congrArg (a :: ·) h.elements, fun i hi => ?_, fun hn => ?_⟩
  · obtain ⟨j, hj, rfl⟩ := Option.map_eq_some_iff.mp (hf.symm.trans hi)
    obtain ⟨hl, hm⟩ := h.stop j hj
    exact ⟨congrArg (· + 1) hl, congrArg (· + 1) hm⟩
  · exact congrArg (· + 1) (h.run (Option.map_eq_none_iff.mp (hf.symm.trans hn)))

end Shown

namespace Cursor

/-- The elements of a scan with the answers about them, and how it comes back: with the element that
an answer has decided for, with the end, or with a panic of a pull or of `f`. -/
inductive Scans (f : α → Act W γ) (decides : γ → Bool) :
    Cursor W α → W → List (α × γ) → Except Panic (Step α) → Cursor W α → W → Prop
  | ended {c d : Cursor W α} {w v : W} (hs : Settles (c.step · w) (.ok .done, d, v)) :
      Scans f decides c w [] (.ok .done) d v
  | panicked {c d : Cursor W α} {w v : W} {p : Panic} (hs : Settles (c.step · w) (.error p, d, v)) :
      Scans f decides c w [] (.error p) d v
  | refused {c d : Cursor W α} {w v u : W} {a : α} {p : Panic}
      (hs : Settles (c.step · w) (.ok (.yield a), d, v)) (hf : f a v = (.error p, u)) :
      Scans f decides c w [] (.error p) d u
  | decided {c d : Cursor W α} {w v u : W} {a : α} {k : γ}
      (hs : Settles (c.step · w) (.ok (.yield a), d, v)) (hf : f a v = (.ok k, u))
      (hk : decides k) : Scans f decides c w [(a, k)] (.ok (.yield a)) d u
  | onward {c d e : Cursor W α} {w v u t : W} {a : α} {k : γ} {l : List (α × γ)}
      {x : Except Panic (Step α)} (hs : Settles (c.step · w) (.ok (.yield a), d, v))
      (hf : f a v = (.ok k, u)) (hk : decides k = false) (h : Scans f decides d u l x e t) :
      Scans f decides c w ((a, k) :: l) x e t

variable {f : α → Act W γ} {decides : γ → Bool} {c d e : Cursor W α} {w v t : W}
  {l : List (α × γ)} {x : Except Panic (Step α)}

/-- Of the cursor that a scan starts from only the first step matters. -/
theorem Scans.begins (h : Scans f decides c w l x e t) :
    ∃ z, Settles (c.step · w) z ∧
      ∀ (b : Cursor W α) (u : W), Settles (b.step · u) z → Scans f decides b u l x e t := by
  cases h with
  | ended hs => exact ⟨_, hs, fun _ _ hb => .ended hb⟩
  | panicked hs => exact ⟨_, hs, fun _ _ hb => .panicked hb⟩
  | refused hs hf => exact ⟨_, hs, fun _ _ hb => .refused hb hf⟩
  | decided hs hf hk => exact ⟨_, hs, fun _ _ hb => .decided hb hf hk⟩
  | onward hs hf hk h => exact ⟨_, hs, fun _ _ hb => .onward hb hf hk h⟩

/-- Where the steps of one cursor come to what those of another do, scans do so too. -/
theorem Scans.simulate {R : Cursor W α → Cursor W α → Prop} {b : Cursor W α}
    (hR : ∀ {c b d w v y}, R c b → Settles (c.step · w) (y, d, v) →
      ∃ e, Settles (b.step · w) (y, e, v) ∧ R d e)
    (h : Scans f decides c w l x e t) (hr : R c b) :
    ∃ e', Scans f decides b w l x e' t ∧ R e e' := by
  induction h generalizing b with
  | ended hs =>
    obtain ⟨d, hd, hr⟩ := hR hr hs
    exact ⟨d, .ended hd, hr⟩
  | panicked hs =>
    obtain ⟨d, hd, hr⟩ := hR hr hs
    exact ⟨d, .panicked hd, hr⟩
  | refused hs hf =>
    obtain ⟨d, hd, hr⟩ := hR hr hs
    exact ⟨d, .refused hd hf, hr⟩
  | decided hs hf hk =>
    obtain ⟨d, hd, hr⟩ := hR hr hs
    exact ⟨d, .decided hd hf hk, hr⟩
  | onward hs hf hk _ ih =>
    obtain ⟨d, hd, hr⟩ := hR hr hs
    obtain ⟨e, he, hr⟩ := ih hr
    exact ⟨e, .onward hd hf hk he, hr⟩

theorem Scans.of_done (h : Scans f decides c w l x e t) (hs : Settles (c.step · w) (.ok .done, d, v)) :
    l = [] ∧ x = .ok .done ∧ e = d ∧ t = v := by
  cases h with
  | ended hc =>
    cases hc.unique hs
    exact ⟨rfl, rfl, rfl, rfl⟩
  | panicked hc | refused hc | decided hc | onward hc => cases hc.unique hs

theorem Scans.of_panic {p : Panic} (h : Scans f decides c w l x e t)
    (hs : Settles (c.step · w) (.error p, d, v)) : x = .error p := by
  cases h with
  | panicked hc =>
    cases hc.unique hs
    rfl
  | ended hc | refused hc | decided hc | onward hc => cases hc.unique hs

theorem Scans.steps {x : Step α} (h : Scans f decides c w l (.ok x) e t) :
    ∃ m, c.Walks m e ∧ Shown decides m l := by
  generalize hx : Except.ok x = y at h
  induction h with
  | ended hs => exact ⟨[⟨_, _, _⟩], .cons hs .nil, .ended⟩
  | panicked | refused => cases hx
  | @decided _ _ w v _ a k hs _ hk => exact ⟨[⟨w, _, v⟩], .cons hs .nil, .decided hk⟩
  | @onward _ _ _ w v _ _ a k l _ hs _ hk _ ih =>
    obtain ⟨m, hm, hl⟩ := ih hx
    exact ⟨⟨w, _, v⟩ :: m, .cons hs hm, hl.onward hk⟩

/-- Answers that come from the elements alone. -/
theorem Scans.answers {g : α → γ} (h : Scans (fun a => pure (g a)) decides c w l x e t) :
    ∀ y ∈ l, y.2 = g y.1 := by
  generalize hf : (fun a => (pure (g a) : Act W γ)) = f at h
  induction h with
  | ended | panicked | refused => exact nofun
  | decided _ hk =>
    subst hf
    cases hk
    exact List.forall_mem_singleton.mpr rfl
  | onward _ hk _ _ ih =>
    subst hf
    cases hk
    exact List.forall_mem_cons.mpr ⟨rfl, ih⟩

end Cursor

end PullStream
