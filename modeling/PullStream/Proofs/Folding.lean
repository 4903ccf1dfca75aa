import PullStream.Proofs.ShortCircuit.Consumers

/-!
# Folds with effects

What a fold does is a list of deeds: it steps the stream, and it calls the combining function. A
fold from the left calls it with each element directly behind the pull of that element (`Folds`), a
fold from the right only when the stream has come to its end (`Backwards`), and from there it does
what a fold from the left does with the list of the elements turned round. The deeds follow one
another in one world, so whatever the stream and the function write down, count or change is done in
this order, and a panic ends the deeds where it happens.
-/

set_option autoImplicit false

namespace PullStream

variable {W α β ρ : Type}

/-- What is done for a fold. -/
inductive Deed (β α : Type) where
  | pulled (x : Except Panic (Step α))
  | called (b : β) (a : α)

namespace Deed

def isCall : Deed β α → Bool
  | pulled _ => false
  | called _ _ => true

/-- The element that a pull has yielded. -/
def element : Deed β α → Option α
  | pulled (.ok (.yield a)) => some a
  | _ => none

/-- The element that the combining function is called with. -/
def argument : Deed β α → Option α
  | pulled _ => none
  | called _ a => some a

/-- All elements are pulled, and then the end. -/
def drained (xs : List α) : List (Deed β α) :=
  xs.map (fun a => pulled (.ok (.yield a))) ++ [pulled (.ok .done)]

/-- Every element that is pulled is combined, and that is done before anything else. -/
structure Prompt (l : List (Deed β α)) : Prop where
  next : ∀ {k a}, l[k]? = some (.pulled (.ok (.yield a))) → ∃ b, l[k + 1]? = some (.called b a)
  behind : ∀ {k b a}, l[k]? = some (.called b a) →
    ∃ j, k = j + 1 ∧ l[j]? = some (.pulled (.ok (.yield a)))
  combined : l.filterMap argument = l.filterMap element

/-- The last deed was a pull that has panicked, or a call that has. -/
def Stopped (f : β → α → Act W ρ) (l : List (Deed β α)) (p : Panic) (t : W) : Prop :=
  l.getLast? = some (.pulled (.error p)) ∨
    ∃ before b a v, l = before ++ [.called b a] ∧ f b a v = (.error p, t)

theorem Stopped.cons {f : β → α → Act W ρ} {l : List (Deed β α)} {p : Panic} {t : W}
    (h : Stopped f l p t) (x : Deed β α) : Stopped f (x :: l) p t := by
  rcases h with h | ⟨before, b, a, v, rfl, hf⟩
  · exact .inl (by rw [List.getLast?_cons, h]; rfl)
  · exact .inr ⟨x :: before, b, a, v, rfl, hf⟩

theorem prompt_nil : Prompt ([] : List (Deed β α)) := ⟨nofun, nofun, rfl⟩

theorem prompt_ended : Prompt [(pulled (.ok .done) : Deed β α)] := by
  refine ⟨fun {k a} h => ?_, fun {k b a} h => ?_, rfl⟩ <;> cases k <;> cases h

theorem prompt_panicked (p : Panic) : Prompt [(pulled (.error p) : Deed β α)] := by
  refine ⟨fun {k a} h => ?_, fun {k b a} h => ?_, rfl⟩ <;> cases k <;> cases h

theorem Prompt.cons {l : List (Deed β α)} (h : Prompt l) (b : β) (a : α) :
    Prompt (.pulled (.ok (.yield a)) :: .called b a :: l) where
  next {k a'} hk := by
    rcases k with _ | _ | k
    · cases hk
      exact ⟨b, rfl⟩
    · cases hk
    · exact h.next hk
  behind {k b' a'} hk := by
    rcases k with _ | _ | k
    · cases hk
    · cases hk
      exact ⟨0, rfl, rfl⟩
    · obtain ⟨j, rfl, hj⟩ := h.behind hk
      exact ⟨j + 2, rfl, hj⟩
  combined := congrArg (a :: ·) h.combined

end Deed

namespace Cursor

/-! ## From the left -/

/-- A fold from the left, begun with `b`: each element is combined as soon as it is pulled. -/
inductive Folds (f : β → α → Act W β) :
    β → Cursor W α → W → List (Deed β α) → Except Panic β → Cursor W α → W → Prop
  | ended {b : β} {c d : Cursor W α} {w v : W} (hs : Settles (c.step · w) (.ok .done, d, v)) :
      Folds f b c w [.pulled (.ok .done)] (.ok b) d v
  | panicked {b : β} {p : Panic} {c d : Cursor W α} {w v : W}
      (hs : Settles (c.step · w) (.error p, d, v)) :
      Folds f b c w [.pulled (.error p)] (.error p) d v
  | refused {b : β} {a : α} {p : Panic} {c d : Cursor W α} {w v u : W}
      (hs : Settles (c.step · w) (.ok (.yield a), d, v)) (hf : f b a v = (.error p, u)) :
      Folds f b c w [.pulled (.ok (.yield a)), .called b a] (.error p) d u
  | onward {b b' : β} {a : α} {c d e : Cursor W α} {w v u t : W} {l : List (Deed β α)}
      {r : Except Panic β} (hs : Settles (c.step · w) (.ok (.yield a), d, v))
      (hf : f b a v = (.ok b', u)) (h : Folds f b' d u l r e t) :
      Folds f b c w (.pulled (.ok (.yield a)) :: .called b a :: l) r e t

/-- A fold from the left that begins with the first element, which is not combined with anything. -/
inductive FoldsFirst (f : α → α → Act W α) :
    Cursor W α → W → List (Deed α α) → Except Panic (Option α) → Cursor W α → W → Prop
  | ended {c d : Cursor W α} {w v : W} (hs : Settles (c.step · w) (.ok .done, d, v)) :
      FoldsFirst f c w [.pulled (.ok .done)] (.ok none) d v
  | panicked {p : Panic} {c d : Cursor W α} {w v : W} (hs : Settles (c.step · w) (.error p, d, v)) :
      FoldsFirst f c w [.pulled (.error p)] (.error p) d v
  | begun {a : α} {c d e : Cursor W α} {w v t : W} {l : List (Deed α α)} {r : Except Panic α}
      (hs : Settles (c.step · w) (.ok (.yield a), d, v)) (h : Folds f a d v l r e t) :
      FoldsFirst f c w (.pulled (.ok (.yield a)) :: l) (r.map some) e t

/-- All elements are pulled, and nothing else is done. -/
inductive Gathers : Cursor W α → W → List (Deed β α) → Except Panic (List α) → Cursor W α → W → Prop
  | ended {c d : Cursor W α} {w v : W} (hs : Settles (c.step · w) (.ok .done, d, v)) :
      Gathers c w [.pulled (.ok .done)] (.ok []) d v
  | panicked {p : Panic} {c d : Cursor W α} {w v : W} (hs : Settles (c.step · w) (.error p, d, v)) :
      Gathers c w [.pulled (.error p)] (.error p) d v
  | onward {a : α} {c d e : Cursor W α} {w v t : W} {l : List (Deed β α)}
      {r : Except Panic (List α)} (hs : Settles (c.step · w) (.ok (.yield a), d, v))
      (h : Gathers d v l r e t) :
      Gathers c w (.pulled (.ok (.yield a)) :: l) (r.map (a :: ·)) e t

/-- What a fold shows its elements to. -/
def combining (f : β → α → Act W β) (b : β) (a : α) : Run W (Verdict β β) :=
  .ofAct ((f b a).andThen fun b => pure (.more b))

section Folds

variable {f : β → α → Act W β} {b : β} {c d e : Cursor W α} {w v t : W} {l : List (Deed β α)}
  {r : Except Panic β}

theorem Folds.of_silent (ht : c.tick w = (.silent, d, v)) (h : Folds f b d v l r e t) :
    Folds f b c w l r e t := by
  cases h with
  | ended hs => exact .ended (settles_step_silent ht hs)
  | panicked hs => exact .panicked (settles_step_silent ht hs)
  | refused hs hf => exact .refused (settles_step_silent ht hs) hf
  | onward hs hf h => exact .onward (settles_step_silent ht hs) hf h

theorem folds_of_consume {fuel : Nat}
    (h : c.consume (combining f) id fuel b w = some (r, e, t)) : ∃ l, Folds f b c w l r e t := by
  induction fuel generalizing b c w with
  | zero => cases h
  | succ fuel ih =>
    rw [consume] at h
    rcases ht : c.tick w with ⟨_ | a | _ | p, d, v⟩ <;> rw [ht] at h
    · obtain ⟨l, hl⟩ := ih h
      exact ⟨l, hl.of_silent ht⟩
    · have hs := settles_step_yield ht
      rcases hf : f b a v with ⟨p | b', u⟩ <;>
        simp only [combining, Run.ofAct, Act.andThen, hf, Act.pure_apply] at h
      · cases h
        exact ⟨_, .refused hs hf⟩
      · obtain ⟨l, hl⟩ := ih h
        exact ⟨_, .onward hs hf hl⟩
    · cases h
      exact ⟨_, .ended (settles_step_done ht)⟩
    · cases h
      exact ⟨_, .panicked (settles_step_panic ht)⟩

theorem Folds.settles (h : Folds f b c w l r e t) :
    Settles (fun fuel => c.consume (combining f) id fuel b w) (r, e, t) := by
  induction h with
  | ended hs => exact settles_consume_of_done hs
  | panicked hs => exact settles_consume_of_panic hs
  | refused hs hf =>
    exact settles_consume_of_yield hs fun _ _ ht => settles_of_first fun _ => by
      rw [consume, ht]
      simp only [combining, Run.ofAct, Act.andThen, hf]
  | onward hs hf _ ih =>
    refine settles_consume_of_yield hs fun _ _ ht => settles_of_next (fun _ => ?_) ih
    rw [consume, ht]
    simp only [combining, Run.ofAct, Act.andThen, hf, Act.pure_apply]

theorem settles_combining_iff :
    Settles (fun fuel => c.consume (combining f) id fuel b w) (r, e, t) ↔
      ∃ l, Folds f b c w l r e t := by
  constructor
  · intro h
    obtain ⟨fuel, h⟩ := h.comes
    exact folds_of_consume h
  · rintro ⟨l, h⟩
    exact h.settles

theorem Folds.prompt (h : Folds f b c w l r e t) : Deed.Prompt l := by
  induction h with
  | ended => exact Deed.prompt_ended
  | panicked => exact Deed.prompt_panicked _
  | refused => exact Deed.prompt_nil.cons _ _
  | onward _ _ _ ih => exact ih.cons _ _

theorem Folds.stopped {p : Panic} (h : Folds f b c w l (.error p) e t) : Deed.Stopped f l p t := by
  generalize hr : Except.error p = r at h
  induction h with
  | ended => cases hr
  | panicked =>
    cases hr
    exact .inl rfl
  | @refused b a _ _ _ _ v _ _ hf =>
    cases hr
    exact .inr ⟨[.pulled (.ok (.yield a))], b, a, v, rfl, hf⟩
  | onward _ _ _ ih => exact ((ih hr).cons _).cons _

end Folds

section First

variable {f : α → α → Act W α} {c d e : Cursor W α} {w v t : W} {l : List (Deed α α)}
  {r : Except Panic (Option α)}

/-- What a fold does that has to begin with the first element. -/
def seeding (f : α → α → Act W α) : Option α → α → Act W (Option α)
  | none, a => pure (some a)
  | some b, a => (f b a).andThen fun b => pure (some b)

/-- Behind the first element a fold is one that was begun with it. -/
theorem folds_seeding_iff {b : α} :
    (∃ l, Folds (seeding f) (some b) c w l r e t) ↔
      ∃ l r', Folds f b c w l r' e t ∧ r = r'.map some := by
  constructor
  · rintro ⟨l, h⟩
    -- behind the first element there always is something to combine with
    generalize hb : some b = o at h
    induction h generalizing b with
    | ended hs =>
      subst hb
      exact ⟨_, _, .ended hs, rfl⟩
    | panicked hs => exact ⟨_, _, .panicked hs, rfl⟩
    | @refused _ a _ _ _ _ v _ hs hf =>
      subst hb
      rcases hc : f b a v with ⟨q | b', u⟩ <;> simp only [seeding, Act.andThen, hc] at hf <;>
        cases hf
      exact ⟨_, _, .refused hs hc, rfl⟩
    | @onward _ _ a _ _ _ _ v _ _ _ _ hs hf _ ih =>
      subst hb
      rcases hc : f b a v with ⟨q | b', u⟩ <;> simp only [seeding, Act.andThen, hc] at hf <;>
        cases hf
      obtain ⟨l, r', hl, hr⟩ := ih rfl
      exact ⟨_, r', .onward hs hc hl, hr⟩
  · rintro ⟨l, r', h, rfl⟩
    induction h with
    | ended hs => exact ⟨_, .ended hs⟩
    | panicked hs => exact ⟨_, .panicked hs⟩
    | refused hs hf =>
      exact ⟨_, .refused hs (by simp only [seeding, Act.andThen, hf])⟩
    | onward hs hf _ ih =>
      obtain ⟨l, hl⟩ := ih
      exact ⟨_, .onward hs (by simp only [seeding, Act.andThen, hf]; rfl) hl⟩

theorem folds_first_iff :
    (∃ l, Folds (seeding f) none c w l r e t) ↔ ∃ l, FoldsFirst f c w l r e t := by
  constructor
  · rintro ⟨l, h⟩
    cases h with
    | ended hs => exact ⟨_, .ended hs⟩
    | panicked hs => exact ⟨_, .panicked hs⟩
    | refused hs hf => cases hf
    | onward hs hf h =>
      cases hf
      obtain ⟨l, r', hl, rfl⟩ := folds_seeding_iff.mp ⟨_, h⟩
      exact ⟨_, .begun hs hl⟩
  · rintro ⟨l, h⟩
    cases h with
    | ended hs => exact ⟨_, .ended hs⟩
    | panicked hs => exact ⟨_, .panicked hs⟩
    | begun hs h =>
      obtain ⟨l, hl⟩ := folds_seeding_iff.mpr ⟨_, _, h, rfl⟩
      exact ⟨_, .onward hs rfl hl⟩

theorem FoldsFirst.prompt (h : FoldsFirst f c w l r e t) :
    (∀ x ∈ l.head?, x.isCall = false) ∧ Deed.Prompt l.tail := by
  cases h with
  | ended => exact ⟨fun x hx => by cases hx; rfl, Deed.prompt_nil⟩
  | panicked => exact ⟨fun x hx => by cases hx; rfl, Deed.prompt_nil⟩
  | begun _ h => exact ⟨fun x hx => by cases hx; rfl, h.prompt⟩

theorem FoldsFirst.stopped {p : Panic} (h : FoldsFirst f c w l (.error p) e t) :
    Deed.Stopped f l p t := by
  generalize hr : Except.error p = r at h
  cases h with
  | ended => cases hr
  | panicked =>
    cases hr
    exact .inl rfl
  | @begun _ _ _ _ _ _ _ _ r _ h =>
    cases r with
    | ok => cases hr
    | error =>
      cases hr
      exact h.stopped.cons _

end First

section Gathers

variable {c d e : Cursor W α} {w v t : W} {l : List (Deed β α)}

theorem map_pushed (xs : Array α) (a : α) (r : Except Panic (List α)) :
    (r.map (a :: ·)).map (fun ys => xs ++ ys.toArray) =
      r.map fun ys => xs.push a ++ ys.toArray := by
  cases r <;> simp [Except.map]

/-- To put the elements into an array is to gather them. -/
theorem folds_push_iff {xs : Array α} {r : Except Panic (Array α)} :
    (∃ l, Folds (fun xs a => pure (xs.push a)) xs c w l r e t) ↔
      ∃ (l : List (Deed β α)) (r' : Except Panic (List α)),
        Gathers c w l r' e t ∧ r = r'.map fun ys => xs ++ ys.toArray := by
  constructor
  · rintro ⟨l, h⟩
    induction h with
    | ended hs => exact ⟨_, _, .ended hs, by simp [Except.map]⟩
    | panicked hs => exact ⟨_, _, .panicked hs, rfl⟩
    | refused hs hf => cases hf
    | onward hs hf _ ih =>
      cases hf
      obtain ⟨l, r', hl, rfl⟩ := ih
      exact ⟨_, _, .onward hs hl, (map_pushed _ _ r').symm⟩
  · rintro ⟨l, r', h, rfl⟩
    induction h generalizing xs with
    | ended hs => exact ⟨_, by simpa [Except.map] using Folds.ended hs⟩
    | panicked hs => exact ⟨_, .panicked hs⟩
    | @onward a _ _ _ _ _ _ _ r' hs _ ih =>
      obtain ⟨l, hl⟩ := @ih (xs.push a)
      rw [← map_pushed] at hl
      exact ⟨_, .onward hs rfl hl⟩

theorem Gathers.no_call {r : Except Panic (List α)} (h : Gathers c w l r e t) :
    ∀ x ∈ l, x.isCall = false := by
  induction h with
  | ended | panicked => exact List.forall_mem_singleton.mpr rfl
  | onward _ _ ih => exact List.forall_mem_cons.mpr ⟨rfl, ih⟩

theorem Gathers.drained {xs : List α} (h : Gathers c w l (.ok xs) e t) : l = Deed.drained xs := by
  generalize hr : Except.ok xs = r at h
  induction h generalizing xs with
  | ended =>
    cases hr
    rfl
  | panicked => cases hr
  | @onward a _ _ _ _ _ _ _ r _ _ ih =>
    cases r with
    | error => cases hr
    | ok ys =>
      cases hr
      exact congrArg (_ :: ·) (ih rfl)

end Gathers

/-- The cursor gives finitely many elements: whatever world its steps are made in, each of them
comes back, and the elements come to an end. A step may panic. -/
inductive Finite : Cursor W α → Prop
  | intro {c : Cursor W α} (comes : ∀ w, ∃ r, Settles (c.step · w) r)
      (onward : ∀ {a d w v}, Settles (c.step · w) (.ok (.yield a), d, v) → Finite d) : Finite c

section Finite

variable {c : Cursor W α}

theorem Finite.folds (h : c.Finite) (f : β → α → Act W β) (b : β) (w : W) :
    ∃ l r e t, Folds f b c w l r e t := by
  induction h generalizing b w with
  | @intro c comes _ ih =>
    obtain ⟨⟨p | a | _, d, v⟩, hs⟩ := comes w
    · exact ⟨_, _, d, v, .panicked hs⟩
    · rcases hf : f b a v with ⟨p | b', u⟩
      · exact ⟨_, _, d, u, .refused hs hf⟩
      · obtain ⟨l, r, e, t, hl⟩ := ih hs b' u
        exact ⟨_, r, e, t, .onward hs hf hl⟩
    · exact ⟨_, _, d, v, .ended hs⟩

theorem Finite.foldsFirst (h : c.Finite) (f : α → α → Act W α) (w : W) :
    ∃ l r e t, FoldsFirst f c w l r e t := by
  obtain ⟨comes, onward⟩ := h
  obtain ⟨⟨p | a | _, d, v⟩, hs⟩ := comes w
  · exact ⟨_, _, d, v, .panicked hs⟩
  · obtain ⟨l, r, e, t, hl⟩ := (onward hs).folds f a v
    exact ⟨_, _, e, t, .begun hs hl⟩
  · exact ⟨_, _, d, v, .ended hs⟩

theorem Finite.gathers (h : c.Finite) (w : W) :
    ∃ (l : List (Deed β α)) (r : Except Panic (List α)) (e : Cursor W α) (t : W),
      Gathers c w l r e t := by
  induction h generalizing w with
  | @intro c comes _ ih =>
    obtain ⟨⟨p | a | _, d, v⟩, hs⟩ := comes w
    · exact ⟨_, _, d, v, .panicked hs⟩
    · obtain ⟨l, r, e, t, hl⟩ := ih hs v
      exact ⟨_, _, e, t, .onward hs hl⟩
    · exact ⟨_, _, d, v, .ended hs⟩

end Finite

end Cursor

namespace Stream

open Cursor

/-! ## Sessions -/

/-- One session: the stream is opened and its cursor used. If that panics nothing more is done. -/
inductive Uses {δ : Type} (use : Cursor W α → W → List δ → Except Panic ρ → Cursor W α → W → Prop)
    (s : Stream W α) (w : W) : List δ → Except Panic ρ → W → Prop
  | opened {c e : Cursor W α} {v t : W} {l : List δ} {r : Except Panic ρ}
      (hc : s.cursor w = (.ok c, v)) (h : use c v l r e t) : Uses use s w l r t
  | lost {p : Panic} {v : W} (hc : s.cursor w = (.error p, v)) : Uses use s w [] (.error p) v

/-- A fold from the left. -/
def Folds (s : Stream W α) (f : β → α → Act W β) (b : β) :
    W → List (Deed β α) → Except Panic β → W → Prop :=
  s.Uses (Cursor.Folds f b)

/-- A fold from the left that begins with the first element. -/
def FoldsFirst (s : Stream W α) (f : α → α → Act W α) :
    W → List (Deed α α) → Except Panic (Option α) → W → Prop :=
  s.Uses (Cursor.FoldsFirst f)

/-- First all elements are pulled. If that has come to the end, then what is done from there, and
what comes of it, is what is called and what comes of it when a stream of the same elements, the
last one first, is folded. -/
inductive Backwards (fold : Stream W α → W → List (Deed β α) → Except Panic ρ → W → Prop)
    (s : Stream W α) (w : W) : List (Deed β α) → Except Panic ρ → W → Prop
  | panicked {l : List (Deed β α)} {p : Panic} {v : W} (h : s.Uses Gathers w l (.error p) v) :
      Backwards fold s w l (.error p) v
  | folded {pulls l : List (Deed β α)} {xs : List α} {r : Except Panic ρ} {v t : W}
      (h : s.Uses Gathers w pulls (.ok xs) v) (hf : fold (ofList xs.reverse) v l r t) :
      Backwards fold s w (pulls ++ l.filter Deed.isCall) r t

variable {s : Stream W α} {w w' : W}

theorem settles_uses_iff {δ : Type}
    {run : Nat → Cursor W α → W → Option (Except Panic ρ × Cursor W α × W)}
    {use : Cursor W α → W → List δ → Except Panic ρ → Cursor W α → W → Prop} {r : Except Panic ρ}
    (hl : ∀ c v, Lasting (run · c v))
    (hu : ∀ {c e v t r}, Settles (run · c v) (r, e, t) ↔ ∃ l, use c v l r e t) :
    Settles (fun fuel => s.session (run fuel) w) (r, w') ↔ ∃ l, s.Uses use w l r w' := by
  unfold session
  rcases hc : s.cursor w with ⟨p | c, v⟩
  · constructor
    · intro h
      obtain ⟨_, h⟩ := h.comes
      cases h
      exact ⟨[], .lost hc⟩
    · rintro ⟨l, h⟩
      cases h with
      | opened h => cases hc.symm.trans h
      | lost h =>
        cases hc.symm.trans h
        exact settles_of_first fun _ => rfl
  · constructor
    · intro h
      obtain ⟨⟨x, e, u⟩, h, hx⟩ := ((hl c v).settles_map_iff _ _).mp h
      cases hx
      obtain ⟨l, hl⟩ := hu.mp h
      exact ⟨l, .opened hc hl⟩
    · rintro ⟨l, h⟩
      cases h with
      | opened h hl =>
        cases hc.symm.trans h
        exact (hu.mpr ⟨l, hl⟩).map fun x => (x.1, x.2.2)
      | lost h => cases hc.symm.trans h

theorem settles_fold_iff {f : β → α → Act W β} {b : β} {r : Except Panic β} :
    Settles (fun fuel => s.fold fuel f b w) (r, w') ↔ ∃ l, s.Folds f b w l r w' :=
  settles_uses_iff (fun _ _ => lasting_consume _ _ _ _ _) settles_combining_iff

theorem settles_reduce_iff {f : α → α → Act W α} {r : Except Panic (Option α)} :
    Settles (s.reduce · f w) (r, w') ↔ ∃ l, s.FoldsFirst f w l r w' := by
  have hr : ∀ fuel, s.reduce fuel f = s.fold fuel (seeding f) none := by
    intro fuel
    unfold reduce
    congr 1
  simp only [hr]
  exact settles_uses_iff (fun _ _ => lasting_consume _ _ _ _ _)
    (settles_combining_iff.trans folds_first_iff)

theorem settles_toArray_iff {r : Except Panic (Array α)} :
    Settles (s.toArray · w) (r, w') ↔
      ∃ (l : List (Deed β α)) (r' : Except Panic (List α)),
        s.Uses Gathers w l r' w' ∧ r = r'.map List.toArray := by
  have he : (fun ys : List α => #[] ++ ys.toArray) = List.toArray := by
    funext ys
    simp
  refine settles_fold_iff.trans ?_
  constructor
  · rintro ⟨_, ⟨hc, h⟩ | hc⟩
    · obtain ⟨l, r', hl, rfl⟩ := folds_push_iff.mp ⟨_, h⟩
      exact ⟨l, r', .opened hc hl, by rw [he]⟩
    · exact ⟨[], _, .lost hc, rfl⟩
  · rintro ⟨_, r', ⟨hc, h⟩ | hc, rfl⟩
    · obtain ⟨l, hl⟩ := folds_push_iff.mpr ⟨_, _, h, rfl⟩
      rw [he] at hl
      exact ⟨l, .opened hc hl⟩
    · exact ⟨[], .lost hc⟩

/-! ## From the right -/

theorem exists_folds_list (f : β → α → Act W β) (xs : List α) (b : β) (w : W) :
    ∃ l e, Cursor.Folds f b (.source listSource false xs) w l (foldList f xs b w).1 e
      (foldList f xs b w).2 := by
  induction xs generalizing b w with
  | nil => exact ⟨_, _, .ended (settles_step_done rfl)⟩
  | cons a xs ih =>
    rw [foldList, Act.andThen]
    rcases hf : f b a w with ⟨p | b', u⟩
    · exact ⟨_, _, .refused (settles_step_yield rfl) hf⟩
    · obtain ⟨l, e, hl⟩ := ih b' u
      exact ⟨_, e, .onward (settles_step_yield rfl) hf hl⟩

theorem foldList_iff {f : β → α → Act W β} {b : β} {xs : List α} {r : Except Panic β} :
    foldList f xs b w = (r, w') ↔ ∃ l, (ofList xs).Folds f b w l r w' := by
  obtain ⟨l, e, hl⟩ := exists_folds_list f xs b w
  have hx : (ofList xs).Folds f b w l (foldList f xs b w).1 (foldList f xs b w).2 := .opened rfl hl
  constructor
  · intro h
    rw [h] at hx
    exact ⟨l, hx⟩
  · intro h
    exact (settles_fold_iff.mpr ⟨l, hx⟩).unique (settles_fold_iff.mpr h)

/-- Folds a list from the left with effects, beginning with its first element. -/
def foldListFirst (f : α → α → Act W α) : List α → Act W (Option α)
  | [] => pure none
  | a :: rest => (foldList f rest a).andThen fun b => pure (some b)

theorem foldListFirst_cons (f : α → α → Act W α) (a : α) (xs : List α) (w : W) :
    foldListFirst f (a :: xs) w = ((foldList f xs a w).1.map some, (foldList f xs a w).2) := by
  rw [foldListFirst, Act.andThen]
  rcases foldList f xs a w with ⟨p | b, u⟩ <;> rfl

theorem foldListFirst_none {f : α → α → Act W α} {xs : List α}
    (h : foldListFirst f xs w = (.ok none, w')) : xs = [] ∧ w = w' := by
  cases xs with
  | nil => exact ⟨rfl, (Prod.mk.inj h).2⟩
  | cons a xs =>
    rw [foldListFirst_cons] at h
    generalize foldList f xs a w = x at h
    obtain ⟨p | b, u⟩ := x <;> cases h

theorem foldListFirst_iff {f : α → α → Act W α} {xs : List α} {r : Except Panic (Option α)} :
    foldListFirst f xs w = (r, w') ↔ ∃ l, (ofList xs).FoldsFirst f w l r w' := by
  have hx : ∃ l, (ofList xs).FoldsFirst f w l (foldListFirst f xs w).1
      (foldListFirst f xs w).2 := by
    cases xs with
    | nil => exact ⟨_, .opened rfl (.ended (settles_step_done rfl))⟩
    | cons a xs =>
      obtain ⟨l, e, hl⟩ := exists_folds_list f xs a w
      rw [foldListFirst_cons]
      exact ⟨_, .opened rfl (.begun (settles_step_yield rfl) hl)⟩
  constructor
  · intro h
    rwa [h] at hx
  · intro h
    exact (settles_reduce_iff.mpr hx).unique (settles_reduce_iff.mpr h)

theorem settles_backwards_iff {fold : Stream W α → W → List (Deed β α) → Except Panic ρ → W → Prop}
    {run : List α → Act W ρ} {r : Except Panic ρ}
    (hr : ∀ {xs v r t}, run xs v = (r, t) ↔ ∃ l, fold (ofList xs) v l r t) :
    Settles (fun fuel => (s.toArray fuel).andThen (fun xs => .ofAct (run xs.toList.reverse)) w)
      (r, w') ↔ ∃ l, s.Backwards fold w l r w' := by
  -- the elements are all there before anything is run with them
  have hm : ∀ fuel, (s.toArray fuel).andThen (fun xs => .ofAct (run xs.toList.reverse)) w =
      (s.toArray fuel w).map fun
        | (.ok xs, v) => run xs.toList.reverse v
        | (.error p, v) => (.error p, v) := by
    intro fuel
    unfold Run.andThen
    rcases s.toArray fuel w with _ | ⟨p | xs, v⟩ <;> rfl
  have hl : Lasting (s.toArray · w) :=
    lasting_session _ fun c v _ => lasting_consume _ _ _ c v
  simp only [hm, hl.settles_map_iff, settles_toArray_iff (β := β)]
  constructor
  · rintro ⟨⟨x, v⟩, ⟨l, p | xs, hg, rfl⟩, he⟩
    · cases he
      exact ⟨l, .panicked hg⟩
    · obtain ⟨l', hf⟩ := hr.mp he.symm
      exact ⟨_, .folded hg hf⟩
  · rintro ⟨l, h⟩
    cases h with
    | @panicked _ p _ hg => exact ⟨(.error p, w'), ⟨l, .error p, hg, rfl⟩, rfl⟩
    | @folded pulls l xs _ v _ hg hf =>
      have hx : run xs.reverse v = (r, w') := hr.mpr ⟨l, hf⟩
      exact ⟨(.ok xs.toArray, v), ⟨pulls, .ok xs, hg, rfl⟩, hx.symm⟩

section Backwards

variable {fold : Stream W α → W → List (Deed β α) → Except Panic ρ → W → Prop}
  {l : List (Deed β α)} {r : Except Panic ρ}

theorem Uses.no_call {r : Except Panic (List α)} (h : s.Uses Gathers w l r w') :
    ∀ x ∈ l, x.isCall = false := by
  cases h with
  | opened _ h => exact h.no_call
  | lost => exact nofun

theorem Uses.drained {xs : List α} (h : s.Uses Gathers w l (.ok xs) w') : l = Deed.drained xs := by
  cases h with
  | opened _ h => exact h.drained

/-- Unless nothing is called, the calls come behind the pull that has reported the end. -/
theorem Backwards.parted (h : s.Backwards fold w l r w') :
    (∀ x ∈ l, x.isCall = false) ∨
      ∃ xs calls, l = Deed.drained xs ++ calls ∧ ∀ x ∈ calls, x.isCall = true := by
  cases h with
  | panicked h => exact .inl h.no_call
  | @folded pulls l xs _ _ _ h hf =>
    refine .inr ⟨xs, l.filter Deed.isCall, ?_, fun x hx => (List.mem_filter.mp hx).2⟩
    rw [h.drained]

/-- A pull that panics keeps everything from being called. -/
theorem Backwards.no_call {p : Panic} (h : s.Backwards fold w l r w')
    (hp : .pulled (.error p) ∈ l) : ∀ x ∈ l, x.isCall = false := by
  rcases h.parted with h | ⟨xs, calls, rfl, hc⟩
  · exact h
  · rcases List.mem_append.mp hp with hp | hp
    · simp [Deed.drained] at hp
    · cases hc _ hp

end Backwards

section Nothing

theorem foldsFirst_none_iff {f : α → α → Act W α} :
    (∃ l, s.FoldsFirst f w l (.ok none) w') ↔ s.Steps w [.done] w' := by
  constructor
  · rintro ⟨l, h⟩
    generalize hr : Except.ok none = r at h
    rcases h with ⟨hc, h⟩ | hc
    · cases h with
      | ended hs => exact ⟨_, _, _, hc, .cons hs .nil⟩
      | panicked => cases hr
      | @begun _ _ _ _ _ _ _ _ r => cases r <;> cases hr
    · cases hr
  · rintro ⟨c, v, e, hc, _ | ⟨hs, _ | _⟩⟩
    exact ⟨_, .opened hc (.ended hs)⟩

theorem backwards_none_iff {f : α → α → Act W α} :
    (∃ l, s.Backwards (fun t => t.FoldsFirst f) w l (.ok none) w') ↔ s.Steps w [.done] w' := by
  constructor
  · rintro ⟨l, h⟩
    cases h with
    | @folded pulls l xs _ _ _ hg hf =>
      obtain ⟨hx, rfl⟩ := foldListFirst_none (foldListFirst_iff.mpr ⟨l, hf⟩)
      obtain rfl := List.reverse_eq_nil_iff.mp hx
      cases hg with
      | opened hc hg =>
        generalize hr : Except.ok [] = r at hg
        cases hg with
        | ended hs => exact ⟨_, _, _, hc, .cons hs .nil⟩
        | panicked => cases hr
        | @onward _ _ _ _ _ _ _ _ r => cases r <;> cases hr
  · rintro ⟨c, v, e, hc, _ | ⟨hs, _ | _⟩⟩
    exact ⟨_, .folded (.opened hc (.ended hs)) (.opened rfl (.ended (settles_step_done rfl)))⟩

end Nothing

/-- Whatever sessions with the stream are opened, their cursors give finitely many elements. -/
def Finite (s : Stream W α) : Prop := ∀ {w c v}, s.cursor w = (.ok c, v) → c.Finite

theorem Finite.uses {δ : Type} {ρ : Type}
    {use : Cursor W α → W → List δ → Except Panic ρ → Cursor W α → W → Prop} (hs : s.Finite)
    (hu : ∀ {c} v, c.Finite → ∃ l r e t, use c v l r e t) (w : W) :
    ∃ l r w', s.Uses use w l r w' := by
  rcases hc : s.cursor w with ⟨p | c, v⟩
  · exact ⟨[], _, v, .lost hc⟩
  · obtain ⟨l, r, e, t, h⟩ := hu v (hs hc)
    exact ⟨l, r, t, .opened hc h⟩

theorem Finite.backwards (hs : s.Finite)
    (fold : Stream W α → W → List (Deed β α) → Except Panic ρ → W → Prop)
    (hf : ∀ xs v, ∃ l r t, fold (ofList xs) v l r t) (w : W) :
    ∃ l r w', s.Backwards fold w l r w' := by
  have hg : ∃ (l : List (Deed β α)) (r : Except Panic (List α)) (v : W), s.Uses Gathers w l r v :=
    hs.uses (fun v hc => hc.gathers v) w
  obtain ⟨l, p | xs, v, hl⟩ := hg
  · exact ⟨l, _, v, .panicked hl⟩
  · obtain ⟨l', r, t, hf⟩ := hf xs.reverse v
    exact ⟨_, r, t, .folded hl hf⟩

/-! ## The four folds -/

theorem settles_reduceRightWith_iff {f : β → α → Act W β} {b : β} {r : Except Panic β} :
    Settles (s.reduceRightWith · b f w) (r, w') ↔
      ∃ l, s.Backwards (fun t => t.Folds f b) w l r w' := by
  have hf : ∀ {xs v r t}, foldList f xs b v = (r, t) ↔ ∃ l, (ofList xs).Folds f b v l r t :=
    foldList_iff
  exact settles_backwards_iff hf

theorem settles_reduceRight_iff {f : α → α → Act W α} {r : Except Panic (Option α)} :
    Settles (s.reduceRight · f w) (r, w') ↔
      ∃ l, s.Backwards (fun t => t.FoldsFirst f) w l r w' := by
  have hr : ∀ fuel, s.reduceRight fuel f =
      (s.toArray fuel).andThen fun xs => .ofAct (foldListFirst f xs.toList.reverse) := by
    intro fuel
    unfold reduceRight
    congr 1
  simp only [hr]
  exact settles_backwards_iff foldListFirst_iff

/-- What the folds do and in which order, and what comes of it. -/
structure FoldsInOrder (s : Stream W α) : Prop where
  reduceWith {β : Type} (f : β → α → Act W β) (b : β) (w w' : W) (r : Except Panic β) :
    Settles (s.reduceWith · b f w) (r, w') ↔ ∃ l, s.Folds f b w l r w'
  reduce (f : α → α → Act W α) (w w' : W) (r : Except Panic (Option α)) :
    Settles (s.reduce · f w) (r, w') ↔ ∃ l, s.FoldsFirst f w l r w'
  /-- From the left, each element is combined directly behind its pull and before the next one. -/
  prompt {β : Type} {f : β → α → Act W β} {b : β} {w w' : W} {l : List (Deed β α)}
      {r : Except Panic β} (h : s.Folds f b w l r w') :
    Deed.Prompt l
  /-- Without a start this holds behind the first element, for which nothing is called. -/
  promptFirst {f : α → α → Act W α} {w w' : W} {l : List (Deed α α)} {r : Except Panic (Option α)}
      (h : s.FoldsFirst f w l r w') :
    (∀ x ∈ l.head?, x.isCall = false) ∧ Deed.Prompt l.tail
  /-- A panic, unless the stream could not be opened, is that of the last deed: behind it nothing is
  pulled or called. -/
  stopped {β : Type} {f : β → α → Act W β} {b : β} {w w' : W} {l : List (Deed β α)} {p : Panic}
      (h : s.Folds f b w l (.error p) w') :
    s.cursor w = (.error p, w') ∧ l = [] ∨ Deed.Stopped f l p w'
  stoppedFirst {f : α → α → Act W α} {w w' : W} {l : List (Deed α α)} {p : Panic}
      (h : s.FoldsFirst f w l (.error p) w') :
    s.cursor w = (.error p, w') ∧ l = [] ∨ Deed.Stopped f l p w'
  reduceRightWith {β : Type} (f : β → α → Act W β) (b : β) (w w' : W) (r : Except Panic β) :
    Settles (s.reduceRightWith · b f w) (r, w') ↔
      ∃ l, s.Backwards (fun t => t.Folds f b) w l r w'
  reduceRight (f : α → α → Act W α) (w w' : W) (r : Except Panic (Option α)) :
    Settles (s.reduceRight · f w) (r, w') ↔ ∃ l, s.Backwards (fun t => t.FoldsFirst f) w l r w'
  /-- From the right, nothing is called before the end of the stream has been pulled. -/
  parted {β ρ : Type} {fold : Stream W α → W → List (Deed β α) → Except Panic ρ → W → Prop}
      {w w' : W} {l : List (Deed β α)} {r : Except Panic ρ} (h : s.Backwards fold w l r w') :
    (∀ x ∈ l, x.isCall = false) ∨
      ∃ xs calls, l = Deed.drained xs ++ calls ∧ ∀ x ∈ calls, x.isCall = true
  /-- A pull that panics keeps everything from being called. -/
  noCall {β ρ : Type} {fold : Stream W α → W → List (Deed β α) → Except Panic ρ → W → Prop}
      {w w' : W} {l : List (Deed β α)} {r : Except Panic ρ} {p : Panic}
      (h : s.Backwards fold w l r w') (hp : .pulled (.error p) ∈ l) :
    ∀ x ∈ l, x.isCall = false
  reduceNone (f : α → α → Act W α) (w w' : W) :
    Settles (s.reduce · f w) (.ok none, w') ↔ s.Steps w [.done] w'
  reduceRightNone (f : α → α → Act W α) (w w' : W) :
    Settles (s.reduceRight · f w) (.ok none, w') ↔ s.Steps w [.done] w'
  reduceWithReturns {β : Type} (f : β → α → Act W β) (b : β) (w : W) :
    ∃ x, Settles (s.reduceWith · b f w) x
  reduceReturns (f : α → α → Act W α) (w : W) : ∃ x, Settles (s.reduce · f w) x
  reduceRightWithReturns {β : Type} (f : β → α → Act W β) (b : β) (w : W) :
    ∃ x, Settles (s.reduceRightWith · b f w) x
  reduceRightReturns (f : α → α → Act W α) (w : W) : ∃ x, Settles (s.reduceRight · f w) x

/-- On a stream with finitely many elements, whatever its pulls and the combining function do, the
folds come back. From the left the elements are combined as they are pulled; from the right they are
all pulled first, and then combined as from the left in the other order. Without a start nothing
comes back exactly when there is no element. -/
theorem folds_keep_order (s : Stream W α) (hs : s.Finite) : s.FoldsInOrder where
  reduceWith f b w w' r := settles_fold_iff
  reduce f w w' r := settles_reduce_iff
  prompt h := by
    rcases h with ⟨-, h⟩ | -
    · exact h.prompt
    · exact Deed.prompt_nil
  promptFirst h := by
    rcases h with ⟨-, h⟩ | -
    · exact h.prompt
    · exact ⟨nofun, Deed.prompt_nil⟩
  stopped h := by
    rcases h with ⟨-, h⟩ | hc
    · exact .inr h.stopped
    · exact .inl ⟨hc, rfl⟩
  stoppedFirst h := by
    rcases h with ⟨-, h⟩ | hc
    · exact .inr h.stopped
    · exact .inl ⟨hc, rfl⟩
  reduceRightWith f b w w' r := settles_reduceRightWith_iff
  reduceRight f w w' r := settles_reduceRight_iff
  parted h := h.parted
  noCall h hp := h.no_call hp
  reduceNone f w w' := settles_reduce_iff.trans foldsFirst_none_iff
  reduceRightNone f w w' := settles_reduceRight_iff.trans backwards_none_iff
  reduceWithReturns f b w := by
    obtain ⟨l, r, w', h⟩ := hs.uses (fun v hc => hc.folds f b v) w
    exact ⟨(r, w'), settles_fold_iff.mpr ⟨l, h⟩⟩
  reduceReturns f w := by
    obtain ⟨l, r, w', h⟩ := hs.uses (fun v hc => hc.foldsFirst f v) w
    exact ⟨(r, w'), settles_reduce_iff.mpr ⟨l, h⟩⟩
  reduceRightWithReturns f b w := by
    have hf : ∀ xs v, ∃ l r t, (ofList xs).Folds f b v l r t := by
      intro xs v
      obtain ⟨l, e, h⟩ := exists_folds_list f xs b v
      exact ⟨l, _, _, .opened rfl h⟩
    obtain ⟨l, r, w', h⟩ := hs.backwards (fun t => t.Folds f b) hf w
    exact ⟨(r, w'), settles_reduceRightWith_iff.mpr ⟨l, h⟩⟩
  reduceRightReturns f w := by
    have hf : ∀ xs v, ∃ l r t, (ofList xs).FoldsFirst f v l r t := by
      intro xs v
      obtain ⟨l, h⟩ := foldListFirst_iff.mp (rfl : foldListFirst f xs v = (_, _))
      exact ⟨l, _, _, h⟩
    obtain ⟨l, r, w', h⟩ := hs.backwards (fun t => t.FoldsFirst f) hf w
    exact ⟨(r, w'), settles_reduceRight_iff.mpr ⟨l, h⟩⟩

/-- A supplier that writes down what it is asked for. -/
def noting : Source (List (Deed Nat Nat)) (List Nat) Nat where
  pull
    | [], log => (.ok .done, [], log ++ [.pulled (.ok .done)])
    | a :: rest, log => (.ok (.yield a), rest, log ++ [.pulled (.ok (.yield a))])
  jump := none

def noted : Stream (List (Deed Nat Nat)) Nat := .source (Act.done [1, 2, 3]) noting

/-- Puts digits together and writes down each call; a one is refused. -/
def digits (b a : Nat) : Act (List (Deed Nat Nat)) Nat := fun log =>
  (if a = 1 then .error ⟨"one"⟩ else .ok (10 * b + a), log ++ [.called b a])

theorem finite_noting (xs : List Nat) : (Cursor.source noting false xs).Finite := by
  induction xs with
  | nil =>
    have hs : ∀ w, Settles ((Cursor.source noting false []).step · w) (.ok .done, _, _) :=
      fun w => settles_step_done rfl
    refine .intro (fun w => ⟨_, hs w⟩) fun {a d w v} h => ?_
    cases h.unique (hs w)
  | cons a xs ih =>
    have hs : ∀ w, Settles ((Cursor.source noting false (a :: xs)).step · w)
        (.ok (.yield a), .source noting false xs, _) := fun w => settles_step_yield rfl
    refine .intro (fun w => ⟨_, hs w⟩) fun {a d w v} h => ?_
    cases h.unique (hs w)
    exact ih

theorem finite_noted : noted.Finite := by
  rintro w c v ⟨⟩
  exact finite_noting _

theorem folds_keep_order_noted :
    noted.Finite ∧ Settles (noted.reduceRight · digits [])
      (.error ⟨"one"⟩, Deed.drained [1, 2, 3] ++ [.called 3 2, .called 32 1]) := by
  have hg : noted.Uses (Gathers (β := Nat)) [] (Deed.drained [1, 2, 3]) (.ok [1, 2, 3])
      (Deed.drained [1, 2, 3]) :=
    .opened rfl (.onward (settles_step_yield rfl) (.onward (settles_step_yield rfl)
      (.onward (settles_step_yield rfl) (.ended (settles_step_done rfl)))))
  have hc : Cursor.Folds digits 3 (.source listSource false [2, 1]) (Deed.drained [1, 2, 3]) _
      (.error ⟨"one"⟩) _ (Deed.drained [1, 2, 3] ++ [.called 3 2, .called 32 1]) :=
    .onward (settles_step_yield rfl) rfl (.refused (settles_step_yield rfl) rfl)
  have hf := Uses.opened (s := ofList [3, 2, 1]) rfl
    (Cursor.FoldsFirst.begun (settles_step_yield rfl) hc)
  exact ⟨finite_noted,
    ((folds_keep_order noted finite_noted).reduceRight digits [] _ _).mpr ⟨_, .folded hg hf⟩⟩

end Stream

end PullStream
