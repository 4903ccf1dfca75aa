import PullStream.Proofs.Descent
import PullStream.Proofs.Nested.Draws
import PullStream.Proofs.Tree.Forest

/-!
# Flattening is lazy

Streams that write down when they are opened and pulled show when a drain of the flattened stream
does what. The elements of a nested structure of finite size make up a forest, and the drain goes
through it one stream at a time (`drains_forest`): what is open around a stream enters as the place
where the drain goes on when the stream has ended. One proof serves `Stream.flat` and
`Stream.leaves`, which differ in the levels where they enter streams.
-/

set_option autoImplicit false

namespace PullStream

open Cursor Moves

variable {W ι α γ : Type}

/-! ## Streams that write down what is done with them -/

/-- Stepping the cursor gives the elements and then the end. Each step is written down as a pull of
the stream that was opened at the given place. -/
def Cursor.Serves (log : W → List (Draw ι α)) (k : Nat) :
    Cursor W (Nested ι α) → List (Nested ι α) → Prop
  | c, [] => ∀ w, ∃ d v, Settles (c.step · w) (.ok .done, d, v) ∧ log v = log w ++ [.pulled k none]
  | c, x :: xs => ∀ w, ∃ d v, Settles (c.step · w) (.ok (.yield x), d, v) ∧
      log v = log w ++ [.pulled k (some x)] ∧ d.Serves log k xs

/-- Whenever the stream is opened, that is written down, and it gives the elements. -/
def Stream.Serves (log : W → List (Draw ι α)) (i : Option ι) (s : Stream W (Nested ι α))
    (xs : List (Nested ι α)) : Prop :=
  ∀ w, ∃ c v, s.cursor w = (.ok c, v) ∧ log v = log w ++ [.opened i] ∧
    c.Serves log (log w).length xs

/-! ## Drains -/

namespace Cursor

/-- Steps a cursor to its end. `aside` is what the holder does with each element. -/
def drain (aside : γ → W → W) :
    Nat → Cursor W γ → W → Option (Except Panic (List γ) × Cursor W γ × W)
  | 0, _, _ => none
  | fuel+1, c, w =>
    match c.step fuel w with
    | none => none
    | some (.ok (.yield a), c, w) =>
      (drain aside fuel c (aside a w)).map fun (r, c, w) => (r.map (a :: ·), c, w)
    | some (.ok .done, c, w) => some (.ok [], c, w)
    | some (.error p, c, w) => some (.error p, c, w)

/-- A drain that comes to the end, step by step. -/
inductive Drains (aside : γ → W → W) : Cursor W γ → W → List γ × Cursor W γ × W → Prop
  | done {c d : Cursor W γ} {w v : W} (hs : Settles (c.step · w) (.ok .done, d, v)) :
      Drains aside c w ([], d, v)
  | yield {a : γ} {c d : Cursor W γ} {w v : W} {as : List γ} {r : Cursor W γ × W}
      (hs : Settles (c.step · w) (.ok (.yield a), d, v)) (hn : Drains aside d (aside a v) (as, r)) :
      Drains aside c w (a :: as, r)

variable {aside : γ → W → W} {c d : Cursor W γ} {w v : W} {r : List γ × Cursor W γ × W}

theorem Drains.settles (h : Drains aside c w r) :
    Settles (fun fuel => c.drain aside fuel w) (.ok r.1, r.2) := by
  induction h with
  | @done c d w v hs =>
    have hd : Settles (fun _ => some ((.ok [] : Except Panic (List γ)), d, v)) (.ok [], d, v) :=
      settles_of_first fun _ => rfl
    exact settles_of_part hs (fun fuel hf => by rw [drain, hf]) hd
  | @yield a c d w v as r hs hn ih =>
    have hm := ih.map fun (r, c, w) => (r.map (a :: ·), c, w)
    exact settles_of_part hs (fun fuel hf => by rw [drain, hf]) hm

/-- A cursor whose steps come back as those of another one is drained as that is. -/
theorem Drains.congr (h : Drains aside d v r)
    (hs : ∀ x, Settles (d.step · v) x → Settles (c.step · w) x) : Drains aside c w r := by
  cases h with
  | done hd => exact .done (hs _ hd)
  | yield hy hn => exact .yield (hs _ hy) hn

/-- What a drain comes to after a move that has found the end of a stream. -/
def Resumes (aside : γ → W → W) :
    Move γ × Cursor W γ × W → List γ × Cursor W γ × W → Prop
  | (.silent, c, w), r => Drains aside c w r
  | (.done, c, w), r => r = ([], c, w)
  | _, _ => False

end Cursor

/-- Elements are handed over, or the streams that they name entered, as the level says. `shape` is
what the elements handed over were. -/
def Selects (visit : Nat → Nested ι α → Act W (Visit ι γ)) (enters : Nat → Bool)
    (shape : γ → Nested ι α) : Prop :=
  ∀ (level : Nat) (x : Nested ι α), match x.entered (enters level) with
    | some i => visit level x = Act.done (.enter i)
    | none => ∃ y, shape y = x ∧ visit level x = Act.done (.emit y)

theorem selects_flat (depth : Nat) :
    Selects (W := W) (ι := ι) (α := α) (Stream.flatVisit depth) (· < depth) id := by
  intro level x
  cases x with
  | value a =>
    rw [Nested.entered_value]
    exact ⟨_, rfl, rfl⟩
  | stream i =>
    by_cases h : level < depth
    · simp only [h, decide_true, Nested.entered, Stream.flatVisit, if_true]
    · simp only [h, decide_false, Nested.entered, Stream.flatVisit, if_false]
      exact ⟨_, rfl, rfl⟩

theorem selects_leaves :
    Selects (W := W) (ι := ι) (α := α) Stream.leafVisit (fun _ => true) .value := by
  intro level x
  cases x with
  | value a => exact ⟨a, rfl, rfl⟩
  | stream i => rfl

/-- The elements of a stream that is an element. -/
def Nested.parts (contents : Option ι → List (Nested ι α)) : Nested ι α → List (Nested ι α)
  | .value _ => []
  | .stream i => contents (some i)

section Draining

variable {visit : Nat → Nested ι α → Act W (Visit ι γ)} {enters : Nat → Bool}
  {shape : γ → Nested ι α} {book : ι → Stream W (Nested ι α)} {log : W → List (Draw ι α)}
  {aside : γ → W → W} {contents : Option ι → List (Nested ι α)} {level : Nat}
  {around : Cursor W (Nested ι α) → Cursor W γ} {finish : W → Move γ × Cursor W γ × W}
  {top top' : Cursor W (Nested ι α)} {x : Nested ι α} {w v : W}

/-- When the stream that is drained has ended, the drain goes on as `finish` says. -/
theorem drains_finish {r : List γ × Cursor W γ × W}
    (ht : ∀ top w, (around top).tick w = draining visit book level around finish (top.tick w))
    (hs : Settles (top.step · w) (.ok .done, top', v)) (hr : Resumes aside (finish v) r) :
    Drains aside (around top) w r := by
  rcases hf : finish v with ⟨_ | _ | _ | _, c, u⟩ <;> rw [hf] at hr
  · apply Drains.congr hr
    intro x hx
    exact settles_draining ht hs fun d u hd => settles_step_silent (hd.trans hf) hx
  · exact hr.elim
  · cases hr
    exact .done (settles_draining ht hs fun d u hd => settles_step_done (hd.trans hf))
  · exact hr.elim

/-- An element that names no stream to enter is handed over. -/
theorem settles_passed {y : γ}
    (ht : ∀ top w, (around top).tick w = draining visit book level around finish (top.tick w))
    (hs : Settles (top.step · w) (.ok (.yield x), top', v))
    (hv : visit level x = Act.done (.emit y)) :
    Settles ((around top).step · w) (.ok (.yield y), around top', v) := by
  apply settles_draining ht hs
  intro c u hc
  simp only [Move.ofStep, draining, descent, hv, Act.done] at hc
  exact settles_step_yield hc

/-- A stream that is entered is opened and drained by the step that has pulled it. -/
theorem drains_entered {i : ι} {c : Cursor W (Nested ι α)} {u : W} {r : List γ × Cursor W γ × W}
    (ht : ∀ top w, (around top).tick w = draining visit book level around finish (top.tick w))
    (hs : Settles (top.step · w) (.ok (.yield x), top', v))
    (hv : visit level x = Act.done (.enter i)) (hc : (book i).cursor v = (.ok c, u))
    (hr : Drains aside (dive visit book (level + 1) c (around top')) u r) :
    Drains aside (around top) w r := by
  apply hr.congr
  intro y hy
  apply settles_draining ht hs
  intro d u' hd
  simp only [Move.ofStep, draining, descent, opening, hv, Act.done, hc] at hd
  exact settles_step_silent hd hy

/-- Around a stream whose elements are the roots of a forest, a drain goes through the forest, writes
down what it does, and goes on as `finish` says. -/
theorem drains_forest (hv : Selects visit enters shape)
    (hb : ∀ i, (book i).Serves log (some i) (contents (some i)))
    (ha : ∀ y w, log (aside y w) = log w ++ [.yielded (shape y)]) {f : Forest (Nested ι α)}
    (hf : f.Follows (Nested.parts contents))
    (ht : ∀ top w, (around top).tick w = draining visit book level around finish (top.tick w))
    {k : Nat} (hp : top.Serves log k f.roots) {stack : List (Nat × List (Nested ι α))}
    (hl : stack.length = level)
    (hw : Draw.Fetched contents enters (log w) ((k, f.roots) :: stack)) :
    ∃ ys u, Draw.Fetched contents enters (log u) stack ∧
      ∀ r, Resumes aside (finish u) r → Drains aside (around top) w (ys ++ r.1, r.2) := by
  induction f generalizing level around finish top w k stack with
  | nil =>
    obtain ⟨top', v, hs, hlog⟩ := hp w
    exact ⟨[], v, hlog ▸ hw.ended, fun r hr => drains_finish ht hs hr⟩
  | cons x below later ihb ihl =>
    obtain ⟨hbn, hbelow, hlater⟩ := hf
    obtain ⟨top', v, hs, hlog, hp'⟩ := hp w
    have hx := hv level x
    cases he : x.entered (enters level) with
    | none =>
      rw [he] at hx
      obtain ⟨y, rfl, hy⟩ := hx
      have hw' : Draw.Fetched contents enters (log (aside y v)) ((k, later.roots) :: stack) := by
        rw [ha, hlog]
        exact hw.passed (hl ▸ he)
      obtain ⟨ys, u, hu, hr⟩ := ihl hlater ht hp' hl hw'
      exact ⟨y :: ys, u, hu, fun r h => .yield (settles_passed ht hs hy) (hr r h)⟩
    | some i =>
      rw [he] at hx
      obtain rfl := Nested.eq_stream_of_entered he
      obtain ⟨c, v', hc, hlog', hserve⟩ := hb i v
      have hlen : (log v).length = (log w).length + 1 := by simp [hlog]
      have hw' : Draw.Fetched contents enters (log v')
          (((log v).length, below.roots) :: (k, later.roots) :: stack) := by
        rw [hlen, hlog', hlog, hbn]
        exact hw.entered (hl ▸ he)
      have hserve' : c.Serves log (log v).length below.roots := hbn ▸ hserve
      -- the stream is drained around the one that it was an element of, and its end leads back there
      obtain ⟨ys, u, hu, hr⟩ := ihb hbelow (tick_dive_eq_draining (level + 1) · (around top'))
        hserve' (congrArg (· + 1) hl) hw'
      obtain ⟨zs, u', hu', hr'⟩ := ihl hlater ht hp' hl hu
      refine ⟨ys ++ zs, u', hu', fun r h => ?_⟩
      apply drains_entered ht hs hx hc
      rw [List.append_assoc]
      exact hr (zs ++ r.1, r.2) (hr' r h)

/-- A drain of what a stream and the streams below it are flattened to comes to the end and does
nothing ahead of demand. -/
theorem drains_descending (hv : Selects visit enters shape)
    (hb : ∀ i, (book i).Serves log (some i) (contents (some i)))
    (ha : ∀ y w, log (aside y w) = log w ++ [.yielded (shape y)]) {s : Stream W (Nested ι α)}
    (hs : s.Serves log none (contents none))
    (hf : ∀ x ∈ contents none, Acc (fun y x => y ∈ x.parts contents) x) {w : W} (hw : log w = []) :
    ∃ c v, (Stream.descending visit book s).cursor w = (.ok c, v) ∧ log v = [.opened none] ∧
      ∃ ys d u, Settles (fun fuel => c.drain aside fuel v) (.ok ys, d, u) ∧
        Draw.OnDemand contents enters (log u) := by
  obtain ⟨f, hr, hfollows⟩ :=
    Forest.exists_of_roots (contents none) fun x hx => Forest.exists_unfolds (hf x hx)
  obtain ⟨c, v, hc, hv', hp⟩ := hs w
  rw [hw] at hv' hp
  have hl : Draw.Fetched contents enters (log v) [(0, f.roots)] := by
    rw [hv', hr]
    exact .begun
  obtain ⟨ys, u, hu, hdrain⟩ := drains_forest hv hb ha hfollows tick_descend_eq_draining
    (hr ▸ hp) (rfl : ([] : List (Nat × List (Nested ι α))).length = 0) hl
  refine ⟨.descend visit book c, v, by simp only [Stream.cursor, Act.andThen, hc, Act.done], hv',
    ys, .empty, u, ?_, hu.onDemand⟩
  have hd := (hdrain ([], .empty, u) rfl).settles
  rwa [List.append_nil] at hd

end Draining

/-- Take a stream and streams below it that write down when they are opened and pulled, with
finitely many elements in all, and a holder who writes down the elements handed over. To open the
flattened stream opens the outermost one and nothing else. A drain comes to the end, and its log says
that nothing was done ahead of demand: with `flat` down to the given depth, with `leaves` on all
levels. -/
theorem flattening_is_lazy (book : ι → Stream W (Nested ι α)) (s : Stream W (Nested ι α))
    (contents : Option ι → List (Nested ι α)) (log : W → List (Draw ι α))
    (hb : ∀ i, (book i).Serves log (some i) (contents (some i)))
    (hs : s.Serves log none (contents none))
    (hf : ∀ x ∈ contents none, Acc (fun y x => y ∈ x.parts contents) x)
    (aside : Nested ι α → W → W) (ha : ∀ x w, log (aside x w) = log w ++ [.yielded x])
    (w : W) (hw : log w = []) :
    (∀ depth, 1 ≤ depth → ∃ c v, (s.flat book depth).cursor w = (.ok c, v) ∧
      log v = [.opened none] ∧
      ∃ ys d u, Settles (fun fuel => c.drain aside fuel v) (.ok ys, d, u) ∧
        Draw.OnDemand contents (· < depth) (log u)) ∧
    ∃ c v, (s.leaves book).cursor w = (.ok c, v) ∧ log v = [.opened none] ∧
      ∃ ys d u, Settles (fun fuel => c.drain (fun a => aside (.value a)) fuel v) (.ok ys, d, u) ∧
        Draw.OnDemand contents (fun _ => true) (log u) := by
  have hk : s.knownEmpty = false := by
    cases s with
    | empty =>
      obtain ⟨c, v, hc, hv, -⟩ := hs w
      cases hc
      simp [hw] at hv
    | _ => rfl
  refine ⟨fun depth hd => ?_, drains_descending selects_leaves hb (fun a => ha (.value a)) hs hf hw⟩
  have he : s.flat book depth = .descending (Stream.flatVisit depth) book s := by
    simp only [Stream.flat, hk, Nat.ne_of_gt hd, if_false, Bool.false_eq_true]
  rw [he]
  exact drains_descending (selects_flat depth) hb ha hs hf hw

/-- Gives elements and writes down its pulls under the place where its opening is written. -/
def notedSource : Source (List (Draw Nat Nat)) (Nat × List (Nested Nat Nat)) (Nested Nat Nat) where
  pull
    | (k, []), log => (.ok .done, (k, []), log ++ [.pulled k none])
    | (k, x :: xs), log => (.ok (.yield x), (k, xs), log ++ [.pulled k (some x)])
  jump := none

def noted (i : Option Nat) (xs : List (Nested Nat Nat)) :
    Stream (List (Draw Nat Nat)) (Nested Nat Nat) :=
  .source (fun log => (.ok (log.length, xs), log ++ [.opened i])) notedSource

/-- A stream with two streams among its elements, one of which is empty and occurs in the other. -/
def burrow : Option Nat → List (Nested Nat Nat)
  | none => [.stream 0, .value 7, .stream 1]
  | some 1 => [.value 8, .stream 0]
  | some _ => []

theorem noted_serves (i : Option Nat) (xs : List (Nested Nat Nat)) :
    (noted i xs).Serves id i xs := by
  have hc : ∀ k, (Cursor.source notedSource false (k, xs)).Serves id k xs := by
    intro k
    induction xs with
    | nil => exact fun _ => ⟨_, _, Cursor.settles_step_done rfl, rfl⟩
    | cons x xs ih => exact fun _ => ⟨_, _, Cursor.settles_step_yield rfl, rfl, ih⟩
  exact fun log => ⟨_, _, rfl, rfl, hc _⟩

theorem burrow_acc (x : Nested Nat Nat) : Acc (fun y x => y ∈ x.parts burrow) x := by
  have hv : ∀ a, Acc (fun y x => y ∈ Nested.parts burrow x) (.value a) := fun a =>
    ⟨_, fun y hy => by cases hy⟩
  have h0 : ∀ i, i ≠ 1 → Acc (fun y x => y ∈ Nested.parts burrow x) (.stream i) := by
    intro i hi
    refine ⟨_, fun y hy => ?_⟩
    simp [Nested.parts, burrow] at hy
  cases x with
  | value a => exact hv a
  | stream i =>
    by_cases hi : i = 1
    · subst hi
      refine ⟨_, fun y hy => ?_⟩
      simp only [Nested.parts, burrow, List.mem_cons, List.not_mem_nil, or_false] at hy
      rcases hy with rfl | rfl
      · exact hv 8
      · exact h0 0 (by decide)
    · exact h0 i hi

theorem flattening_is_lazy_burrow :
    (∃ c v, ((noted none (burrow none)).flat (fun i => noted (some i) (burrow (some i))) 1).cursor
        [] = (.ok c, v) ∧
      ∃ ys d u, Settles (fun fuel => c.drain (fun x log => log ++ [.yielded x]) fuel v)
          (.ok ys, d, u) ∧
        Draw.OnDemand burrow (· < 1) u) ∧
    ∃ c v, ((noted none (burrow none)).leaves fun i => noted (some i) (burrow (some i))).cursor
        [] = (.ok c, v) ∧
      ∃ ys d u, Settles (fun fuel => c.drain (fun a log => log ++ [.yielded (.value a)]) fuel v)
          (.ok ys, d, u) ∧
        Draw.OnDemand burrow (fun _ => true) u := by
  obtain ⟨hflat, c, v, hc, -, hleaves⟩ := flattening_is_lazy
    (fun i => noted (some i) (burrow (some i))) (noted none (burrow none)) burrow id
    (fun i => noted_serves (some i) _) (noted_serves none _) (fun x _ => burrow_acc x)
    (fun x log => log ++ [.yielded x]) (fun _ _ => rfl) [] rfl
  obtain ⟨c', v', hc', -, hdrain⟩ := hflat 1 (Nat.le_refl 1)
  exact ⟨⟨c', v', hc', hdrain⟩, c, v, hc, hleaves⟩

end PullStream
