import PullStream.Proofs.Cursor.Ending
import PullStream.Proofs.Cursor.Surrounding
import PullStream.Proofs.Cursor.Walk

/-!
# Sessions told by what they work through

A stage that works through the elements of another cursor spends one step of its own on parts of
many elements, or many steps on one element. `Stretch` describes such a part from where a step of
the stage was begun before it to where one is under way after it, `Cursor.Shows` puts together the
parts that the elements of a cursor lead to, and `Stretch.followed` says what comes behind. Nothing
in these descriptions knows of the stage: they speak of the steps of the cursors that are worked
through. `WorksThrough.told` is the way from the moves of a stage to the story of its sessions.
-/

set_option autoImplicit false

namespace PullStream

variable {W α β : Type}

/-! ## Stories -/

/-- What the holder of a cursor sees of a part of the work on its steps. The part begins in a world
`w`, in the midst of a step that was begun in a world `b`. The steps that end within the part are
listed. When the part is over, a step is under way again, and for this one both worlds are given; if
there are none, no more was seen than a beginning of the part. -/
def Stretch (W α : Type) : Type := W → W → List (Pace W α) → Option (W × W) → Prop

/-- What the holder of a cursor sees from then on. -/
def Sequel (W α : Type) : Type := W → W → List (Pace W α) → Prop

/-- What is seen behind a part that is over as given. -/
def Sequel.goesOn (K : Sequel W α) (l : List (Pace W α)) : Option (W × W) → Prop
  | some (b, w) => K b w l
  | none => l = []

def Stretch.followed (M : Stretch W α) (K : Sequel W α) : Sequel W α := fun b w l =>
  ∃ m n r, l = m ++ n ∧ M b w m r ∧ K.goesOn n r

/-- The step under way yields the element. The next one is begun in any world. -/
inductive Handed (a : α) : W → W → List (Pace W α) → Option (W × W) → Prop
  | cut {b w : W} : Handed a b w [] none
  | shown {b w b' : W} : Handed a b w [⟨b, .ok (.yield a), w⟩] (some (b', b'))

/-- Nothing is done. -/
inductive Unseen : W → W → List (Pace W α) → Option (W × W) → Prop
  | passed {b w : W} : Unseen b w [] (some (b, w))

/-- The steps of a cursor up to its end, where each element leads to a part of its own. A step that
panics ends the step under way, and then the next step of the cursor is made. -/
inductive Cursor.Shows (meets : β → Stretch W α) :
    Cursor W β → W → W → List (Pace W α) → Option (W × W) → Prop
  | cut {c : Cursor W β} {b w : W} : Shows meets c b w [] none
  | panicked {c d : Cursor W β} {p : Panic} {b w v b' : W} {l : List (Pace W α)}
      {r : Option (W × W)} (hs : Settles (c.step · w) (.error p, d, v))
      (hl : Shows meets d b' b' l r) : Shows meets c b w (⟨b, .error p, v⟩ :: l) r
  | within {c d : Cursor W β} {x : β} {b w v : W} {l : List (Pace W α)}
      (hs : Settles (c.step · w) (.ok (.yield x), d, v)) (hm : meets x b v l none) :
      Shows meets c b w l none
  | met {c d : Cursor W β} {x : β} {b w v b' w' : W} {m l : List (Pace W α)} {r : Option (W × W)}
      (hs : Settles (c.step · w) (.ok (.yield x), d, v)) (hm : meets x b v m (some (b', w')))
      (hl : Shows meets d b' w' l r) : Shows meets c b w (m ++ l) r
  | ended {c d : Cursor W β} {b w v : W} (hs : Settles (c.step · w) (.ok .done, d, v)) :
      Shows meets c b w [] (some (b, v))

/-- The stream is opened, and its cursor is stepped up to its end. An opening that panics ends the
step under way, and then nothing more is done with the stream. -/
inductive Stream.Shows (s : Stream W β) (meets : β → Stretch W α) :
    W → W → List (Pace W α) → Option (W × W) → Prop
  | cut {b w : W} : Shows s meets b w [] none
  | lost {p : Panic} {b w v b' : W} (ho : s.cursor w = (.error p, v)) :
      Shows s meets b w [⟨b, .error p, v⟩] (some (b', b'))
  | opened {c : Cursor W β} {b w v : W} {l : List (Pace W α)} {r : Option (W × W)}
      (ho : s.cursor w = (.ok c, v)) (hl : c.Shows meets b v l r) : Shows s meets b w l r

/-- The step under way reports the end, and all that follow do nothing else. -/
def Exhausted : Sequel W α := fun b w l =>
  l = [] ∨ ∃ idle, l = ⟨b, .ok .done, w⟩ :: idle ∧ ∀ x ∈ idle, x.Idle

/-- Whatever is called on the cursor, and whatever is done to the world in between, what comes of it
is what is told, from the first step on. -/
def Cursor.Enacts (c : Cursor W α) (K : Sequel W α) : Prop :=
  ∀ w calls rs, Settles (c.replies · w calls) rs ↔ ∃ b l, K b b l ∧ Made w calls l rs

/-- To open the first stream is to open the second one, and the sessions with the first are told in
terms of the cursor of the second. -/
def Stream.ToldBy (t : Stream W α) (s : Stream W β) (story : Cursor W β → Sequel W α) : Prop :=
  ∀ w, (∃ p v, s.cursor w = (.error p, v) ∧ t.cursor w = (.error p, v)) ∨
    ∃ c d v, s.cursor w = (.ok c, v) ∧ t.cursor w = (.ok d, v) ∧ d.Enacts (story c)

/-! ## Moves that a story tells -/

/-- A move goes on with a step or ends it. -/
theorem Move.eq_silent_or_ofStep (m : Move α) : m = .silent ∨ ∃ x, m = .ofStep x := by
  cases m with
  | silent => exact .inl rfl
  | yield a => exact .inr ⟨.ok (.yield a), rfl⟩
  | done => exact .inr ⟨.ok .done, rfl⟩
  | panic p => exact .inr ⟨.error p, rfl⟩

namespace Cursor

/-- The step that was begun in `b` ends so, and the rest of the steps is as `goes` says. -/
def Comes (goes : Cursor W α → Sequel W α) (b : W) (l : List (Pace W α))
    (x : Except Panic (Step α)) (d : Cursor W α) (v : W) : Prop :=
  l = [] ∨ ∃ b' m, l = ⟨b, x, v⟩ :: m ∧ goes d b' b' m

/-- The move is made in a step begun in `b`, and the rest of the steps is as `goes` says. -/
def Ensues (goes : Cursor W α → Sequel W α) (b : W) (l : List (Pace W α)) :
    Move α × Cursor W α × W → Prop
  | (.silent, d, v) => goes d b v l
  | (.yield a, d, v) => Comes goes b l (.ok (.yield a)) d v
  | (.done, d, v) => Comes goes b l (.ok .done) d v
  | (.panic p, d, v) => Comes goes b l (.error p) d v

/-- What the holder sees of the next moves, of which there are no more than the number says. -/
def Goes : Nat → Cursor W α → Sequel W α
  | 0, _, _, _, l => l = []
  | n + 1, c, b, w, l => Ensues (Goes n) b l (c.tick w)

variable {c d : Cursor W α} {n : Nat} {b w v : W} {l : List (Pace W α)}
  {x : Except Panic (Step α)} {goes : Cursor W α → Sequel W α}

theorem ensues_ofStep : Ensues goes b l (.ofStep x, d, v) ↔ Comes goes b l x d v := by
  rcases x with _ | _ | _ <;> rfl

theorem settles_step_ofStep (h : c.tick w = (.ofStep x, d, v)) :
    Settles (c.step · w) (x, d, v) := by
  rcases x with p | a | _
  · exact settles_step_panic h
  · exact settles_step_yield h
  · exact settles_step_done h

theorem Ensues.imp {goes' : Cursor W α → Sequel W α}
    (h : ∀ {c b w l}, goes c b w l → goes' c b w l) {y : Move α × Cursor W α × W}
    (hy : Ensues goes b l y) : Ensues goes' b l y := by
  obtain ⟨m, d, v⟩ := y
  rcases m.eq_silent_or_ofStep with rfl | ⟨x, rfl⟩
  · exact h hy
  · rw [ensues_ofStep] at hy ⊢
    obtain rfl | ⟨b', m, rfl, hm⟩ := hy
    · exact .inl rfl
    · exact .inr ⟨b', m, rfl, h hm⟩

theorem goes_nil (n : Nat) (c : Cursor W α) (b w : W) : Goes n c b w [] := by
  induction n generalizing c w with
  | zero => rfl
  | succ n ih =>
    rw [Goes]
    rcases c.tick w with ⟨m, d, v⟩
    rcases m.eq_silent_or_ofStep with rfl | ⟨x, rfl⟩
    · exact ih d v
    · exact ensues_ofStep.mpr (.inl rfl)

theorem Goes.succ (h : Goes n c b w l) : Goes (n + 1) c b w l := by
  induction n generalizing c b w l with
  | zero =>
    obtain rfl : l = [] := h
    exact goes_nil 1 c b w
  | succ n ih => exact Ensues.imp ih h

theorem Goes.walks (h : Goes n c b w l) :
    l = [] ∨ ∃ x v m d e, l = ⟨b, x, v⟩ :: m ∧ Settles (c.step · w) (x, d, v) ∧ d.Walks m e := by
  induction n generalizing c b w l with
  | zero => exact .inl h
  | succ n ih =>
    rw [Goes] at h
    rcases ht : c.tick w with ⟨m, d, v⟩
    rw [ht] at h
    rcases m.eq_silent_or_ofStep with rfl | ⟨x, rfl⟩
    · rcases ih h with rfl | ⟨x, u, m, f, e, rfl, hs, hw⟩
      · exact .inl rfl
      · exact .inr ⟨x, u, m, f, e, rfl, settles_step_silent ht hs, hw⟩
    · have hs := settles_step_ofStep ht
      obtain rfl | ⟨b', m, rfl, hm⟩ := ensues_ofStep.mp h
      · exact .inl rfl
      rcases ih hm with rfl | ⟨y, u, m, f, e, rfl, hy, hw⟩
      · exact .inr ⟨x, v, [], d, d, rfl, hs, .nil⟩
      · exact .inr ⟨x, v, _, d, e, rfl, hs, .cons hy hw⟩

/-- A step ends with the last of its moves. -/
theorem ensues_of_step (hs : Settles (c.step · w) (x, d, v)) {P : Cursor W α → W → Prop}
    (hsilent : ∀ c w e u, c.tick w = (.silent, e, u) → P e u → P c w)
    (hlast : ∀ c w, c.tick w = (.ofStep x, d, v) → P c w) : P c w := by
  obtain ⟨fuel, hf⟩ := hs.comes
  clear hs
  induction fuel generalizing c w with
  | zero => cases hf
  | succ fuel ih =>
    rw [step] at hf
    rcases ht : c.tick w with ⟨_ | a | _ | p, e, u⟩ <;> rw [ht] at hf
    · exact hsilent c w e u ht (ih hf)
    all_goals
      cases hf
      exact hlast c w ht

theorem goes_of_step {b' : W} (hs : Settles (c.step · w) (x, d, v)) (hd : Goes n d b' b' l) :
    ∃ m, Goes m c b w (⟨b, x, v⟩ :: l) := by
  apply ensues_of_step hs (P := fun c w => ∃ m, Goes m c b w (⟨b, x, v⟩ :: l))
  · rintro c w e u ht ⟨m, hm⟩
    exact ⟨m + 1, by rwa [Goes, ht]⟩
  · intro c w ht
    exact ⟨n + 1, by rw [Goes, ht, ensues_ofStep]; exact .inr ⟨b', l, rfl, hd⟩⟩

theorem goes_of_walks (h : c.Walks l d) (w : W) : ∃ n b, Goes n c b b l := by
  induction h with
  | nil => exact ⟨0, w, rfl⟩
  | @cons _ _ _ x l hs _ ih =>
    obtain ⟨n, b, hg⟩ := ih
    obtain ⟨m, hm⟩ := goes_of_step (b := x.before) hs hg
    exact ⟨m, x.before, hm⟩

theorem walks_of_goes (h : Goes n c b b l) : ∃ e, c.Walks l e := by
  rcases h.walks with rfl | ⟨x, v, m, d, e, rfl, hs, hw⟩
  · exact ⟨c, .nil⟩
  · exact ⟨e, .cons hs hw⟩

/-! ## Parts of a story -/

/-- What ensues from a move is what is told, and nothing else. -/
structure Bears (y : Move α × Cursor W α × W) (K : Nat → W → List (Pace W α) → Prop) : Prop where
  told : ∀ {n b l}, Ensues (Goes n) b l y → K n b l
  made : ∀ {n b l}, K n b l → ∃ m, Ensues (Goes m) b l y

theorem bears_handed (a : α) (d : Cursor W α) (v : W) :
    Bears (.yield a, d, v) fun n b l => Stretch.followed (Handed a) (Goes n d) b v l where
  told {n b l} h := by
    obtain rfl | ⟨b', m, rfl, hm⟩ := h
    · exact ⟨[], [], none, rfl, .cut, rfl⟩
    · exact ⟨_, m, some (b', b'), rfl, .shown, hm⟩
  made {n b l} h := by
    obtain ⟨m, k, r, rfl, hm, hk⟩ := h
    cases hm with
    | cut =>
      obtain rfl : k = [] := hk
      exact ⟨0, .inl rfl⟩
    | shown => exact ⟨n, .inr ⟨_, k, rfl, hk⟩⟩

/-- A story that may be cut off before it has begun is that of a cursor if it is that of its next
move. -/
theorem Bears.of_tick {c : Cursor W α} {K : Sequel W α} {w : W} (hn : ∀ b, K b w [])
    (h : Bears (c.tick w) fun _ b l => K b w l) : Bears (.silent, c, w) fun _ b l => K b w l where
  told {n b l} hl := by
    cases n with
    | zero =>
      obtain rfl : l = [] := hl
      exact hn b
    | succ n => exact h.told hl
  made {n b l} hl := by
    obtain ⟨m, hm⟩ := h.made (n := n) hl
    exact ⟨m + 1, hm⟩

theorem Ended.idle (hd : d.Ended) (h : Goes n d b b l) : ∀ x ∈ l, x.Idle := by
  induction n generalizing b l with
  | zero =>
    obtain rfl : l = [] := h
    exact nofun
  | succ n ih =>
    rw [Goes, hd.tick] at h
    obtain rfl | ⟨b', m, rfl, hm⟩ := h
    · exact nofun
    · exact List.forall_mem_cons.mpr ⟨⟨rfl, rfl⟩, ih hm⟩

theorem Ended.goes_of_idle (hd : d.Ended) (hl : ∀ x ∈ l, x.Idle) (w : W) :
    ∃ n b, Goes n d b b l := by
  induction l with
  | nil => exact ⟨0, w, rfl⟩
  | cons x l ih =>
    obtain ⟨⟨hx, hw⟩, hm⟩ := List.forall_mem_cons.mp hl
    obtain ⟨before, _ | _ | _, after⟩ := x
    · cases hx
    · cases hx
    · obtain rfl : after = before := hw
      obtain ⟨n, b', hg⟩ := ih hm
      exact ⟨n + 1, after, by rw [Goes, hd.tick]; exact .inr ⟨b', l, rfl, hg⟩⟩

theorem bears_exhausted (hd : d.Ended) (v : W) :
    Bears (.done, d, v) fun _ b l => Exhausted b v l where
  told {n b l} h := by
    obtain rfl | ⟨b', m, rfl, hm⟩ := h
    · exact .inl rfl
    · exact .inr ⟨m, rfl, hd.idle hm⟩
  made {n b l} h := by
    obtain rfl | ⟨m, rfl, hm⟩ := h
    · exact ⟨0, .inl rfl⟩
    · obtain ⟨n, b', hg⟩ := hd.goes_of_idle hm v
      exact ⟨n, .inr ⟨b', m, rfl, hg⟩⟩

/-- A stage works through the elements of the cursor inside it, of which something is known: a panic
is handed on, an element leads to what `meets` says of it, after which the stage goes on with the
next one, and when the end is met it goes on as `K` says. -/
structure WorksThrough (P : Cursor W β → Prop) (around : Cursor W β → Cursor W α)
    (meets : β → Stretch W α) (K : Nat → Sequel W α) : Prop where
  kept : ∀ {m c d w v}, P c → c.tick w = (m, d, v) → P d
  mono : ∀ {n b w l}, K n b w l → K (n + 1) b w l
  silent : ∀ {c d w v}, c.tick w = (.silent, d, v) → (around c).tick w = (.silent, around d, v)
  panics : ∀ {c d w v p}, c.tick w = (.panic p, d, v) →
    (around c).tick w = (.panic p, around d, v)
  yields : ∀ {c d w v x}, c.tick w = (.yield x, d, v) →
    Bears ((around c).tick w) fun n b l => (meets x).followed (Goes n (around d)) b v l
  ends : ∀ {c d w v}, P c → c.tick w = (.done, d, v) →
    Bears ((around c).tick w) fun n b l => K n b v l

section WorksThrough

variable {P : Cursor W β → Prop} {around : Cursor W β → Cursor W α} {meets : β → Stretch W α}
  {K : Nat → Sequel W α} {c d : Cursor W β} {r : Option (W × W)}

theorem shows_silent (ht : c.tick w = (.silent, d, v)) (h : d.Shows meets b v l r) :
    c.Shows meets b w l r := by
  cases h with
  | cut => exact .cut
  | panicked hs hl => exact .panicked (settles_step_silent ht hs) hl
  | within hs hm => exact .within (settles_step_silent ht hs) hm
  | met hs hm hl => exact .met (settles_step_silent ht hs) hm hl
  | ended hs => exact .ended (settles_step_silent ht hs)

theorem WorksThrough.goesOn (h : WorksThrough P around meets K) (hl : (K n).goesOn l r) :
    (K (n + 1)).goesOn l r := by
  cases r with
  | none => exact hl
  | some r => exact h.mono hl

theorem WorksThrough.told (h : WorksThrough P around meets K) (hc : P c)
    (hg : Goes n (around c) b w l) : (Stretch.followed (c.Shows meets) (K n)) b w l := by
  -- on the moves of the stage: a story is only ever told of finitely many of them
  induction n generalizing c b w l with
  | zero => exact ⟨[], [], none, hg, .cut, rfl⟩
  | succ n ih =>
    have hb : ∀ {m d v}, c.tick w = (m, d, v) → P d := h.kept hc
    rcases ht : c.tick w with ⟨_ | x | _ | p, d, v⟩
    · rw [Goes, h.silent ht] at hg
      obtain ⟨m, k, r, rfl, hm, hk⟩ := ih (hb ht) hg
      exact ⟨m, k, r, rfl, shows_silent ht hm, h.goesOn hk⟩
    · obtain ⟨m, k, r, rfl, hm, hk⟩ := (h.yields ht).told hg
      cases r with
      | none => exact ⟨m, k, none, rfl, .within (settles_step_yield ht) hm, hk⟩
      | some r =>
        obtain ⟨m', k, r, rfl, hm', hk⟩ := ih (hb ht) hk
        exact ⟨m ++ m', k, r, (List.append_assoc _ _ _).symm,
          .met (settles_step_yield ht) hm hm', h.goesOn hk⟩
    · exact ⟨[], l, some (b, v), rfl, .ended (settles_step_done ht),
        h.mono ((h.ends hc ht).told hg)⟩
    · rw [Goes, h.panics ht] at hg
      obtain rfl | ⟨b', m, rfl, hg⟩ := hg
      · exact ⟨[], [], none, rfl, .cut, rfl⟩
      · obtain ⟨m, k, r, rfl, hm, hk⟩ := ih (hb ht) hg
        exact ⟨_ :: m, k, r, rfl, .panicked (settles_step_panic ht) hm, h.goesOn hk⟩

theorem WorksThrough.kept_of_step (h : WorksThrough P around meets K) (hc : P c)
    {x : Except Panic (Step β)} (hs : Settles (c.step · w) (x, d, v)) : P d := by
  apply ensues_of_step hs (P := fun c _ => P c → P d)
  · intro c w e u ht hd hc
    exact hd (h.kept hc ht)
  · intro c w ht hc
    exact h.kept hc ht
  · exact hc

/-- The stage makes the moves of a step of the cursor inside, and from the last of them goes on. -/
theorem WorksThrough.goes_of_step (h : WorksThrough P around meets K) (hc : P c)
    {x : Except Panic (Step β)} (hs : Settles (c.step · w) (x, d, v))
    (hx : ∀ c w, P c → c.tick w = (.ofStep x, d, v) →
      ∃ m, Ensues (Goes m) b l ((around c).tick w)) : ∃ m, Goes m (around c) b w l := by
  apply ensues_of_step hs (P := fun c w => P c → ∃ m, Goes m (around c) b w l)
  · intro c w e u ht hm hc
    obtain ⟨m, hm⟩ := hm (h.kept hc ht)
    exact ⟨m + 1, by rwa [Goes, h.silent ht]⟩
  · intro c w ht hc
    obtain ⟨m, hm⟩ := hx c w hc ht
    exact ⟨m + 1, hm⟩
  · exact hc

theorem WorksThrough.made (h : WorksThrough P around meets K) (hc : P c)
    (hg : (Stretch.followed (c.Shows meets) (K n)) b w l) : ∃ m, Goes m (around c) b w l := by
  obtain ⟨m, k, r, rfl, hm, hk⟩ := hg
  -- on the story: each step in it takes as many moves as it needs
  induction hm with
  | cut =>
    obtain rfl : k = [] := hk
    exact ⟨0, rfl⟩
  | panicked hs _ ih =>
    obtain ⟨m, hm⟩ := ih (h.kept_of_step hc hs) hk
    refine h.goes_of_step hc hs fun c w _ ht => ⟨m, ?_⟩
    rw [h.panics ht]
    exact .inr ⟨_, _, rfl, hm⟩
  | within hs hm =>
    obtain rfl : k = [] := hk
    exact h.goes_of_step hc hs fun c w _ ht => (h.yields (x := _) ht).made (n := 0)
      ⟨_, [], none, rfl, hm, rfl⟩
  | met hs hm _ ih =>
    obtain ⟨m, hg⟩ := ih (h.kept_of_step hc hs) hk
    exact h.goes_of_step hc hs fun c w _ ht => (h.yields ht).made
      ⟨_, _, _, List.append_assoc _ _ _, hm, hg⟩
  | ended hs => exact h.goes_of_step hc hs fun c w hc ht => (h.ends hc ht).made hk

theorem WorksThrough.bears (h : WorksThrough P around meets K) (hc : P c) (w : W) :
    Bears (.silent, around c, w) fun n b l => Stretch.followed (c.Shows meets) (K n) b w l :=
  ⟨h.told hc, h.made hc⟩

/-- To open a stream and to work through it. The state that is left when the opening panics has to
go on as the stage does behind the stream. -/
theorem WorksThrough.bears_opening (h : WorksThrough P around meets K) {lost : Cursor W α}
    (hl : ∀ w, Bears (.silent, lost, w) fun n b l => K n b w l) (s : Stream W β) (w : W)
    (ho : ∀ {c v}, s.cursor w = (.ok c, v) → P c) :
    Bears (Moves.opening s around lost .silent w) fun n b l =>
      Stretch.followed (s.Shows meets) (K n) b w l := by
  unfold Moves.opening
  rcases hs : s.cursor w with ⟨p | c, v⟩
  · constructor
    · rintro n b l (rfl | ⟨b', m, rfl, hm⟩)
      · exact ⟨[], [], none, rfl, .cut, rfl⟩
      · exact ⟨_, m, some (b', b'), rfl, .lost hs, (hl b').told hm⟩
    · rintro n b l ⟨m, k, r, rfl, hm, hk⟩
      cases hm with
      | cut =>
        obtain rfl : k = [] := hk
        exact ⟨0, .inl rfl⟩
      | lost ho' =>
        cases hs.symm.trans ho'
        obtain ⟨m, hm⟩ := (hl _).made hk
        exact ⟨m, .inr ⟨_, k, rfl, hm⟩⟩
      | opened ho' => cases hs.symm.trans ho'
  · have hb := h.bears (ho hs) v
    constructor
    · intro n b l hn
      obtain ⟨m, k, r, rfl, hm, hk⟩ := hb.told hn
      exact ⟨m, k, r, rfl, .opened hs hm, hk⟩
    · rintro n b l ⟨m, k, r, rfl, hm, hk⟩
      cases hm with
      | cut =>
        obtain rfl : k = [] := hk
        exact ⟨0, goes_nil 0 (around c) b v⟩
      | lost ho' => cases hs.symm.trans ho'
      | opened ho' hm =>
        cases hs.symm.trans ho'
        exact hb.made ⟨m, k, r, rfl, hm, hk⟩

end WorksThrough

/-! ## The end of a stage -/

/-- The stage ends when the cursor inside it does. What is put around it hands its moves on, and sees
to it that nothing comes behind the end. -/
structure Seals (out : Cursor W α → Cursor W α) (P : Cursor W β → Prop)
    (stage : Cursor W β → Cursor W α) : Prop where
  kept : ∀ {m c d w v}, P c → c.tick w = (m, d, v) → P d
  moves : ∀ {m c d w v}, c.tick w = (m, d, v) → m ≠ .done → (out c).tick w = (m, out d, v)
  ends : ∀ {c d w v}, P c → (stage c).tick w = (.done, d, v) →
    ∃ e, e.Ended ∧ (out (stage c)).tick w = (.done, e, v)

section Seals

variable {out : Cursor W α → Cursor W α} {P : Cursor W β → Prop} {stage : Cursor W β → Cursor W α}

/-- A stage around suppliers that rest needs no seal. -/
theorem seals_firm (hs : ∀ {c : Cursor W β}, c.Firm → (stage c).Firm) :
    Seals id Firm stage where
  kept hc ht := (becomes_of_tick ht).firm hc
  moves ht _ := ht
  ends hc ht := ⟨_, (hs hc).closes.tick ht, ht⟩

/-- A mark of the end seals every stage. -/
theorem seals_fused (stage : Cursor W β → Cursor W α) :
    Seals (fused false) (fun _ => True) stage where
  kept _ _ := trivial
  moves {m c d w v} ht hm := by
    rw [tick_fused, ht]
    cases m with
    | done => exact absurd rfl hm
    | _ => rfl
  ends {c d w v} _ ht := by
    refine ⟨.fused true d, rfl, ?_⟩
    rw [tick_fused, ht]
    rfl

theorem Seals.opening (h : Seals out P stage) {γ : Type} {s : Stream W γ}
    {opened : Cursor W γ → Cursor W α} {lost c : Cursor W α}
    (ht : c.tick w = Moves.opening s opened lost .silent v) :
    (out c).tick w = Moves.opening s (fun e => out (opened e)) (out lost) .silent v := by
  unfold Moves.opening at ht ⊢
  rcases hs : s.cursor v with ⟨p | e, u⟩ <;> rw [hs] at ht
  · exact h.moves ht nofun
  · exact h.moves ht nofun

theorem Seals.bears (h : Seals out P stage) {c : Cursor W β} (hc : P c)
    (ht : (stage c).tick w = (.done, d, v)) :
    Bears ((out (stage c)).tick w) fun _ b l => Exhausted b v l := by
  obtain ⟨e, he, ht⟩ := h.ends hc ht
  rw [ht]
  exact bears_exhausted he v

end Seals

theorem enacts_of_bears {c : Cursor W α} {K : Sequel W α} (hs : c.Strides) (hc : c.InBounds)
    (h : ∀ w, Bears (.silent, c, w) fun _ b l => K b w l) : c.Enacts K := by
  intro w calls rs
  rw [settles_replies_iff hs hc]
  constructor
  · rintro ⟨l, e, hw, hm⟩
    obtain ⟨n, b, hg⟩ := goes_of_walks hw w
    exact ⟨b, l, (h b).told hg, hm⟩
  · rintro ⟨b, l, hl, hm⟩
    obtain ⟨n, hg⟩ := (h b).made (n := 0) hl
    obtain ⟨e, hw⟩ := walks_of_goes hg
    exact ⟨l, e, hw, hm⟩

end Cursor

/-- The story of a stream whose cursors work through those of another one. -/
theorem Stream.toldBy_of_worksThrough {t : Stream W α} {s : Stream W β} {P : Cursor W β → Prop}
    {around : Cursor W β → Cursor W α} {meets : β → Stretch W α} {K : Sequel W α}
    (h : Cursor.WorksThrough P around meets fun _ => K)
    (ht : t.cursor = s.cursor.andThen fun c => Act.done (around c))
    (hp : ∀ {c w v}, s.cursor w = (.ok c, v) → P c)
    (hc : ∀ c, c.InBounds → (around c).Strides ∧ (around c).InBounds) :
    t.ToldBy s fun c => Stretch.followed (c.Shows meets) K := by
  intro w
  simp only [ht, Act.andThen, Act.done]
  rcases ho : s.cursor w with ⟨p | c, v⟩
  · exact .inl ⟨p, v, rfl, rfl⟩
  · obtain ⟨hs, hi⟩ := hc c (s.cursor_inBounds ho)
    exact .inr ⟨c, _, v, rfl, rfl, Cursor.enacts_of_bears hs hi fun w => h.bears (hp ho) w⟩

end PullStream
