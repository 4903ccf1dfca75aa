import PullStream.Proofs.Composition.Combinator
import PullStream.Proofs.Cursor.Lockstep
import PullStream.Proofs.Cursor.Session
import PullStream.Proofs.Snoc

/-!
# Inputs one after the other

Streams can be concatenated from the left or from the right. Either way a session has one input open
at a time, with the inputs to come around it in a shape that depends on the nesting. `Relays` is all
that matters of this shape: a move of the session is a move of the open input, and when that reports
its end the next input is opened in the same move. So the two nestings go in lockstep, and the course
of a session, what is done with which input, obeys the same rule in both.
-/

set_option autoImplicit false

namespace PullStream

open Cursor Moves Relation

variable {W α : Type}

/-- The stream can be opened whatever the world is like. -/
def Stream.Opens (s : Stream W α) : Prop := ∀ w, ∃ c v, s.cursor w = (.ok c, v)

namespace Cursor

/-- A shape of sessions: what is around the cursor of the open input, given how many inputs have
ended before and which are to come. -/
structure Relays (around : Nat → List (Stream W α) → Cursor W α → Cursor W α) : Prop where
  alone : ∀ c, around 0 [] c = c
  steps : ∀ {k rest c}, (k = 0 → rest ≠ []) → ¬ (around k rest c).Jumps
  moves : ∀ {k rest c w m d v}, c.tick w = (m, d, v) → m ≠ .done →
    (around k rest c).tick w = (m, around k rest d, v)
  ends : ∀ {k c w d v}, c.tick w = (.done, d, v) →
    (around k [] c).tick w = (.done, around k [] d, v)
  passes : ∀ k s rest {c w d v}, c.tick w = (.done, d, v) →
    ∃ lost, (around k (s :: rest) c).tick w = opening s (around (k + 1) rest) lost .silent v

/-! ## Nesting from the left -/

/-- An input that is not the first one was opened by the stage around it. -/
def arrived : Nat → Cursor W α → Cursor W α
  | 0, c => c
  | _ + 1, c => .second c

def leftward (k : Nat) (rest : List (Stream W α)) (c : Cursor W α) : Cursor W α :=
  rest.foldl .first (arrived k c)

theorem tick_arrived {c d : Cursor W α} {w v : W} {m : Move α} (h : c.tick w = (m, d, v))
    (k : Nat) : (arrived k c).tick w = (m, arrived k d, v) := by
  cases k with
  | zero => exact h
  | succ k =>
    simp only [arrived, tick_second, h]
    cases m <;> rfl

/-- The inputs to come do not show as long as the end is not reached. -/
theorem tick_foldl_first {c d : Cursor W α} {w v : W} {m : Move α} (h : c.tick w = (m, d, v))
    (hm : m ≠ .done) (rest : List (Stream W α)) :
    (rest.foldl .first c).tick w = (m, rest.foldl .first d, v) := by
  induction rest generalizing c d with
  | nil => exact h
  | cons s rest ih =>
    apply ih
    rw [tick_first, h]
    cases m with
    | done => exact absurd rfl hm
    | _ => rfl

theorem foldl_first_steps {c : Cursor W α} (h : ¬ c.Jumps) (rest : List (Stream W α)) :
    ¬ (rest.foldl .first c).Jumps := by
  induction rest generalizing c with
  | nil => exact h
  | cons s rest ih => exact ih id

theorem relays_leftward : Relays (leftward (W := W) (α := α)) where
  alone _ := rfl
  steps {k rest c} h := by
    cases k with
    | zero =>
      cases rest with
      | nil => exact absurd rfl (h rfl)
      | cons s rest => exact foldl_first_steps id rest
    | succ k => exact foldl_first_steps id rest
  moves h hm := tick_foldl_first (tick_arrived h _) hm _
  ends h := tick_arrived h _
  passes k s rest c w d v h := by
    refine ⟨rest.foldl .first .empty, ?_⟩
    have hf : (Cursor.first (arrived k c) s).tick w = opening s .second .empty .silent v := by
      rw [tick_first, tick_arrived h]
    unfold opening at hf ⊢
    rcases hs : s.cursor v with ⟨p | e, u⟩ <;> rw [hs] at hf
    · exact tick_foldl_first hf nofun rest
    · exact tick_foldl_first hf nofun rest

/-! ## Nesting from the right -/

end Cursor

namespace Stream

def chained : List (Stream W α) → Stream W α
  | [] => .empty
  | [s] => s
  | s :: t :: rest => .joining s (chained (t :: rest))

end Stream

namespace Cursor

def rightward : Nat → List (Stream W α) → Cursor W α → Cursor W α
  | 0, [], c => c
  | 0, s :: rest, c => .first c (Stream.chained (s :: rest))
  | k + 1, rest, c => .second (rightward k rest c)

theorem cursor_chained (s : Stream W α) (rest : List (Stream W α)) :
    (Stream.chained (s :: rest)).cursor =
      s.cursor.andThen fun c => Act.done (rightward 0 rest c) := by
  cases rest with
  | nil => exact (Act.andThen_done s.cursor).symm
  | cons t rest => rfl

theorem relays_rightward : Relays (rightward (W := W) (α := α)) where
  alone _ := rfl
  steps {k rest c} h := by
    cases k with
    | zero =>
      cases rest with
      | nil => exact absurd rfl (h rfl)
      | cons s rest => exact id
    | succ k => exact id
  moves {k rest c w m d v} h hm := by
    induction k with
    | zero =>
      cases rest with
      | nil => exact h
      | cons s rest => exact tick_foldl_first h hm [Stream.chained (s :: rest)]
    | succ k ih => exact tick_arrived ih 1
  ends {k c w d v} h := by
    induction k with
    | zero => exact h
    | succ k ih => exact tick_arrived ih 1
  passes k s rest c w d v h := by
    induction k with
    | zero =>
      refine ⟨.empty, ?_⟩
      rw [rightward, tick_first, h]
      simp only [opening, cursor_chained, Act.andThen, Act.done]
      rcases s.cursor v with ⟨p | e, u⟩ <;> rfl
    | succ k ih =>
      obtain ⟨lost, hl⟩ := ih
      refine ⟨.second lost, ?_⟩
      rw [rightward, tick_second, hl]
      unfold opening
      rcases s.cursor v with ⟨p | e, u⟩ <;> rfl

/-! ## Lockstep -/

/-- Two sessions in different shapes around the same cursor. -/
def Beside (a b : Nat → List (Stream W α) → Cursor W α → Cursor W α) (c d : Cursor W α) : Prop :=
  ∃ k rest e, (∀ s ∈ rest, s.Opens) ∧ c = a k rest e ∧ d = b k rest e

section Lockstep

variable {a b : Nat → List (Stream W α) → Cursor W α → Cursor W α}

theorem Relays.alongside (ha : Relays a) (hb : Relays b) (k : Nat) {rest : List (Stream W α)}
    (ho : ∀ s ∈ rest, s.Opens) (e : Cursor W α) (w : W) :
    Alongside (Beside a b) ((a k rest e).tick w) ((b k rest e).tick w) := by
  rcases he : e.tick w with ⟨m, d, v⟩
  by_cases hm : m = .done
  · subst hm
    cases rest with
    | nil =>
      rw [ha.ends he, hb.ends he]
      exact ⟨rfl, ⟨k, [], d, ho, rfl, rfl⟩, rfl⟩
    | cons s rest =>
      obtain ⟨_, hl⟩ := ha.passes k s rest he
      obtain ⟨_, hr⟩ := hb.passes k s rest he
      obtain ⟨f, u, hs⟩ := ho s List.mem_cons_self v
      rw [hl, hr, opening, opening, hs]
      exact ⟨rfl, ⟨k + 1, rest, f, fun t ht => ho t (List.mem_cons_of_mem s ht), rfl, rfl⟩, rfl⟩
  · rw [ha.moves he hm, hb.moves he hm]
    exact ⟨rfl, ⟨k, rest, d, ho, rfl, rfl⟩, rfl⟩

theorem Relays.lockstep (ha : Relays a) (hb : Relays b) : Lockstep (Beside a b) where
  tick := by
    rintro _ _ ⟨k, rest, e, ho, rfl, rfl⟩ w
    exact ha.alongside hb k ho e w
  skip := by
    rintro _ _ ⟨k, rest, e, ho, rfl, rfl⟩ n w
    by_cases h : k = 0 → rest ≠ []
    · exact Alongside.skip (ha.steps h) (hb.steps h) ⟨k, rest, e, ho, rfl, rfl⟩
        (ha.alongside hb k ho e w) n
    · -- a single input is not wrapped at all
      obtain ⟨rfl, hr⟩ := Classical.not_imp.mp h
      obtain rfl := Classical.not_not.mp hr
      rw [ha.alone, hb.alone]
      exact ⟨rfl, ⟨0, [], _, ho, (ha.alone _).symm, (hb.alone _).symm⟩, rfl⟩

end Lockstep

end Cursor

/-! ## The course of a session -/

/-- What is done with the inputs: one is opened, or asked for an element, and reports its end or
does not. -/
inductive Turn where
  | opened (i : Nat)
  | asked (i : Nat) (ended : Bool)

def Skip.ended : Skip → Bool
  | .finished complete => !complete
  | _ => false

/-- What may have been done with the inputs, together with the input that is open then. Only a
single input is asked to leave out elements all by itself. -/
inductive Course (inputs : List (Stream W α)) : List Turn → Nat → Cursor W α → Prop
  | opened {s : Stream W α} {c : Cursor W α} {w v : W} (hs : inputs[0]? = some s)
      (hc : s.cursor w = (.ok c, v)) : Course inputs [.opened 0] 0 c
  | asked {log : List Turn} {i : Nat} {c d : Cursor W α} {w v : W} {m : Move α}
      (h : Course inputs log i c) (ht : c.tick w = (m, d, v)) (hm : m ≠ .done) :
      Course inputs (log ++ [.asked i false]) i d
  | passed {log : List Turn} {i : Nat} {c d e : Cursor W α} {s : Stream W α} {w v u : W}
      (h : Course inputs log i c) (ht : c.tick w = (.done, d, v)) (hs : inputs[i + 1]? = some s)
      (hc : s.cursor v = (.ok e, u)) :
      Course inputs (log ++ [.asked i true] ++ [.opened (i + 1)]) (i + 1) e
  | ended {log : List Turn} {i : Nat} {c d : Cursor W α} {w v : W} (h : Course inputs log i c)
      (ht : c.tick w = (.done, d, v)) (hl : inputs.length = i + 1) :
      Course inputs (log ++ [.asked i true]) i d
  | skipped {log : List Turn} {c d : Cursor W α} {n : Nat} {w v : W} {r : Skip}
      (h : Course inputs log 0 c) (hs : c.skip n w = (r, d, v)) (hl : inputs.length = 1) :
      Course inputs (log ++ [.asked 0 r.ended]) 0 d

/-- Nothing is opened before the input in front of it has reported its end, and of all inputs only
the last is asked again after its end. -/
structure InTurn (inputs : Nat) (log : List Turn) : Prop where
  opened : ∀ {before : List Turn} {i : Nat}, before ++ [.opened (i + 1)] <+: log →
    .asked i true ∈ before
  asked : ∀ {before : List Turn} {i : Nat} {b : Bool}, before ++ [.asked i b] <+: log →
    .asked i true ∈ before → inputs = i + 1

theorem InTurn.snoc {inputs : Nat} {log : List Turn} {e : Turn} (h : InTurn inputs log)
    (ho : ∀ i, e = .opened (i + 1) → .asked i true ∈ log)
    (ha : ∀ i b, e = .asked i b → .asked i true ∈ log → inputs = i + 1) :
    InTurn inputs (log ++ [e]) where
  opened hp := by
    rcases snoc_prefix_snoc.mp hp with ⟨rfl, rfl⟩ | hp
    · exact ho _ rfl
    · exact h.opened hp
  asked hp hm := by
    rcases snoc_prefix_snoc.mp hp with ⟨rfl, rfl⟩ | hp
    · exact ha _ _ rfl hm
    · exact h.asked hp hm

namespace Course

variable {inputs : List (Stream W α)} {log : List Turn} {i : Nat} {c : Cursor W α}

theorem lt_length (h : Course inputs log i c) : i < inputs.length := by
  induction h with
  | opened hs | passed _ _ hs _ _ => exact (List.getElem?_eq_some_iff.mp hs).1
  | asked _ _ _ ih | ended _ _ _ ih | skipped _ _ _ ih => exact ih

/-- The open input is the last that was asked, and it has not reported its end unless it is the last
of all. -/
theorem asked_le (h : Course inputs log i c) {j : Nat} {b : Bool} (hj : .asked j b ∈ log) :
    j < i ∨ j = i ∧ (b = true → inputs.length = i + 1) := by
  induction h with
  | opened => simp at hj
  | asked h ht hm ih =>
    rcases List.mem_append.mp hj with hj | hj
    · exact ih hj
    · cases List.mem_singleton.mp hj
      exact .inr ⟨rfl, nofun⟩
  | passed h ht hs hc ih =>
    simp only [List.mem_append, List.mem_singleton, Turn.asked.injEq, reduceCtorEq, or_false] at hj
    rcases hj with hj | ⟨rfl, -⟩
    · rcases ih hj with hlt | ⟨rfl, -⟩ <;> omega
    · omega
  | ended h ht hl ih =>
    rcases List.mem_append.mp hj with hj | hj
    · exact ih hj
    · cases List.mem_singleton.mp hj
      exact .inr ⟨rfl, fun _ => hl⟩
  | skipped h hs hl ih =>
    rcases List.mem_append.mp hj with hj | hj
    · exact ih hj
    · cases List.mem_singleton.mp hj
      exact .inr ⟨rfl, fun _ => hl⟩

/-- The open input may be asked. -/
theorem inTurn_asked (h : Course inputs log i c) (ht : InTurn inputs.length log) (b : Bool) :
    InTurn inputs.length (log ++ [.asked i b]) := by
  refine ht.snoc nofun fun j b' he hm => ?_
  cases he
  rcases h.asked_le hm with hlt | ⟨-, hl⟩
  · exact absurd hlt (Nat.lt_irrefl i)
  · exact hl rfl

theorem inTurn (h : Course inputs log i c) : InTurn inputs.length log := by
  induction h with
  | opened =>
    have hn : InTurn inputs.length [] := ⟨fun h => by simp at h, fun h => by simp at h⟩
    exact hn.snoc (fun i he => absurd (Turn.opened.inj he) i.succ_ne_zero.symm) nofun
  | asked h _ _ ih | ended h _ _ ih | skipped h _ _ ih => exact h.inTurn_asked ih _
  | passed h ht hs hc ih =>
    refine (h.inTurn_asked ih true).snoc (fun j he => ?_) nofun
    cases he
    exact List.mem_append_right _ (List.mem_singleton_self _)

end Course

namespace Stream

/-- Sessions with the stream have one of the inputs open at a time, in a given shape, and deal with
them in turn, whatever moves are made. -/
structure TakesTurns (s : Stream W α) (around : Nat → List (Stream W α) → Cursor W α → Cursor W α)
    (inputs : List (Stream W α)) : Prop where
  relays : Relays around
  begins : ∀ {first rest}, inputs = first :: rest →
    s.cursor = first.cursor.andThen fun c => Act.done (around 0 rest c)
  course : ∀ {c d w v}, s.cursor w = (.ok c, v) → ReflTransGen Cursor.Moved c d →
    inputs = [] ∧ d = .empty ∨ ∃ log i e, d = around i (inputs.drop (i + 1)) e ∧
      Course inputs log i e ∧ InTurn inputs.length log

end Stream

namespace Cursor

/-- A session at some point of its course. -/
def Underway (around : Nat → List (Stream W α) → Cursor W α → Cursor W α)
    (inputs : List (Stream W α)) (d : Cursor W α) : Prop :=
  ∃ log i e, d = around i (inputs.drop (i + 1)) e ∧ Course inputs log i e

section Underway

variable {around : Nat → List (Stream W α) → Cursor W α → Cursor W α}
  {inputs : List (Stream W α)} {d : Cursor W α} {w : W}

theorem Underway.tick (hr : Relays around) (ho : ∀ s ∈ inputs, s.Opens)
    (h : d.Underway around inputs) (w : W) : (d.tick w).2.1.Underway around inputs := by
  obtain ⟨log, i, e, rfl, hc⟩ := h
  rcases he : e.tick w with ⟨m, f, v⟩
  by_cases hm : m = .done
  · subst hm
    rcases hd : inputs.drop (i + 1) with _ | ⟨s, rest⟩
    · rw [hr.ends he]
      have hl : inputs.length = i + 1 := by
        have hle := List.drop_eq_nil_iff.mp hd
        have hlt := hc.lt_length
        omega
      exact ⟨_, i, f, by rw [hd], .ended hc he hl⟩
    · obtain ⟨lost, hp⟩ := hr.passes i s rest he
      have hs : inputs[i + 1]? = some s := by
        rw [← Nat.add_zero (i + 1), ← List.getElem?_drop, hd, List.getElem?_cons_zero]
      have hrest : inputs.drop (i + 1 + 1) = rest := by rw [← List.tail_drop, hd, List.tail_cons]
      obtain ⟨f, u, hf⟩ := ho s (List.mem_of_getElem? hs) v
      rw [hp, opening, hf]
      exact ⟨_, i + 1, f, by rw [hrest], .passed hc he hs hf⟩
  · rw [hr.moves he hm]
    exact ⟨_, i, f, rfl, .asked hc he hm⟩

theorem Underway.skip (hr : Relays around) (ho : ∀ s ∈ inputs, s.Opens)
    (h : d.Underway around inputs) (n : Nat) (w : W) :
    (d.skip n w).2.1.Underway around inputs := by
  obtain ⟨log, i, e, rfl, hc⟩ := h
  by_cases hj : i = 0 → inputs.drop (i + 1) ≠ []
  · rw [skip_eq_skipBySteps (hr.steps hj)]
    rcases skipBySteps_state (around i (inputs.drop (i + 1)) e) (Cursor.tick _) n w with hs | hs
    · rw [hs]
      exact ⟨log, i, e, rfl, hc⟩
    · rw [hs]
      exact Underway.tick hr ho ⟨log, i, e, rfl, hc⟩ w
  · obtain ⟨rfl, hd⟩ := Classical.not_imp.mp hj
    have hd := Classical.not_not.mp hd
    have hl : inputs.length = 1 := by
      have hle := List.drop_eq_nil_iff.mp hd
      have hlt := hc.lt_length
      omega
    rw [hd, hr.alone]
    rcases hs : e.skip n w with ⟨r, f, v⟩
    exact ⟨_, 0, f, by rw [hd, hr.alone], .skipped hc hs hl⟩

theorem Underway.moved (hr : Relays around) (ho : ∀ s ∈ inputs, s.Opens) {d d' : Cursor W α}
    (h : d.Underway around inputs) (hm : ReflTransGen Moved d d') :
    d'.Underway around inputs := by
  induction hm with
  | refl => exact h
  | tail _ hm ih =>
    rcases hm with ⟨w, m, v, ht⟩ | ⟨n, w, r, v, hs⟩
    · have ht' := ih.tick hr ho w
      rwa [ht] at ht'
    · have hs' := ih.skip hr ho n w
      rwa [hs] at hs'

end Underway

end Cursor

namespace Stream

/-- Sessions that open the first input and keep to the shape deal with the inputs in turn. -/
theorem TakesTurns.of_relays {s : Stream W α}
    {around : Nat → List (Stream W α) → Cursor W α → Cursor W α} {inputs : List (Stream W α)}
    (hr : Relays around) (ho : ∀ t ∈ inputs, t.Opens) (he : inputs = [] → s = .empty)
    (hb : ∀ {first rest}, inputs = first :: rest →
      s.cursor = first.cursor.andThen fun c => Act.done (around 0 rest c)) :
    s.TakesTurns around inputs where
  relays := hr
  begins := hb
  course {c d w v} hc hm := by
    cases inputs with
    | nil =>
      rw [he rfl] at hc
      cases hc
      exact .inl ⟨rfl, keeps_of_becomes (P := (· = .empty)) (fun h he => by cases he; cases h; rfl)
        (becomes_of_moved hm) rfl⟩
    | cons first rest =>
      right
      rw [hb rfl] at hc
      obtain ⟨e, u, hf, hd⟩ := Act.andThen_ok hc
      cases hd
      have hu : (around 0 rest e).Underway around (first :: rest) :=
        ⟨_, 0, e, rfl, .opened rfl hf⟩
      obtain ⟨log, i, e, rfl, hcourse⟩ := hu.moved hr ho hm
      exact ⟨log, i, e, rfl, hcourse, hcourse.inTurn⟩

/-! ## Both nestings -/

/-- The inputs that are not the shared empty stream. -/
def live (inputs : List (Stream W α)) : List (Stream W α) := inputs.filter fun s => !s.knownEmpty

section Live

variable {s t : Stream W α}

theorem concat_of_live (hs : s.knownEmpty = false) (ht : t.knownEmpty = false) :
    s.concat t = .joining s t := by
  simp [concat, hs, ht]

theorem live_empty (inputs : List (Stream W α)) : live (.empty :: inputs) = live inputs := rfl

theorem live_cons (h : s.knownEmpty = false) (inputs : List (Stream W α)) :
    live (s :: inputs) = s :: live inputs := by
  simp [live, h]

def joined : List (Stream W α) → Stream W α
  | [] => .empty
  | s :: rest => rest.foldl .joining s

theorem foldl_concat (hs : s.knownEmpty = false) (inputs : List (Stream W α)) :
    inputs.foldl concat s = (live inputs).foldl .joining s := by
  induction inputs generalizing s with
  | nil => rfl
  | cons t inputs ih =>
    rw [List.foldl_cons]
    cases ht : t.knownEmpty with
    | true =>
      rw [eq_empty ht, concat_empty, live_empty]
      exact ih hs
    | false =>
      rw [concat_of_live hs ht, live_cons ht]
      exact ih rfl

theorem all_eq_joined (inputs : List (Stream W α)) : all inputs = joined (live inputs) := by
  induction inputs with
  | nil => rfl
  | cons s inputs ih =>
    cases hs : s.knownEmpty with
    | true =>
      rw [eq_empty hs]
      exact ih
    | false =>
      rw [live_cons hs]
      exact foldl_concat hs inputs

theorem cursor_joined (s : Stream W α) (rest : List (Stream W α)) :
    (joined (s :: rest)).cursor = s.cursor.andThen fun c => Act.done (leftward 0 rest c) := by
  induction rest generalizing s with
  | nil => exact (Act.andThen_done s.cursor).symm
  | cons t rest ih =>
    show (joined (.joining s t :: rest)).cursor = _
    rw [ih, cursor, Act.andThen_assoc]
    rfl

theorem chained_knownEmpty (h : s.knownEmpty = false) (rest : List (Stream W α)) :
    (chained (s :: rest)).knownEmpty = false := by
  cases rest with
  | nil => exact h
  | cons t rest => rfl

theorem foldr_eq_chained (inputs : List (Stream W α)) :
    inputs.foldr concat .empty = chained (live inputs) := by
  induction inputs with
  | nil => rfl
  | cons s inputs ih =>
    rw [List.foldr_cons, ih]
    cases hs : s.knownEmpty with
    | true =>
      rw [eq_empty hs]
      rfl
    | false =>
      rw [live_cons hs]
      rcases hl : live inputs with _ | ⟨t, rest⟩
      · exact concat_empty s
      · have ht : t ∈ live inputs := hl ▸ List.mem_cons_self
        have hk : t.knownEmpty = false := by simpa using (List.mem_filter.mp ht).2
        exact concat_of_live hs (chained_knownEmpty hk rest)

end Live

theorem takesTurns_joined {inputs : List (Stream W α)} (h : ∀ s ∈ inputs, s.Opens) :
    (joined inputs).TakesTurns leftward inputs := by
  apply TakesTurns.of_relays relays_leftward h
  · rintro rfl
    rfl
  · rintro s rest rfl
    exact cursor_joined s rest

theorem takesTurns_chained {inputs : List (Stream W α)} (h : ∀ s ∈ inputs, s.Opens) :
    (chained inputs).TakesTurns rightward inputs := by
  apply TakesTurns.of_relays relays_rightward h
  · rintro rfl
    rfl
  · rintro s rest rfl
    exact cursor_chained s rest

theorem replies_joined {inputs : List (Stream W α)} (h : ∀ s ∈ inputs, s.Opens) :
    (joined inputs).replies = (chained inputs).replies := by
  cases inputs with
  | nil => rfl
  | cons s rest =>
    have hr : ∀ t ∈ rest, t.Opens := fun t ht => h t (List.mem_cons_of_mem s ht)
    exact replies_eq (relays_leftward.lockstep relays_rightward)
      (fun c => ⟨0, rest, c, hr, rfl, rfl⟩) (cursor_joined s rest) (cursor_chained s rest)

/-- Streams that can be opened, concatenated from the left or from the right, cannot be told apart,
and either way a session deals with the ones that are not the shared empty stream in turn. -/
theorem concatenation_associates (inputs : List (Stream W α)) (h : ∀ s ∈ inputs, s.Opens) :
    (all inputs).replies = (inputs.foldr concat .empty).replies ∧
      (all inputs).TakesTurns leftward (live inputs) ∧
      (inputs.foldr concat .empty).TakesTurns rightward (live inputs) := by
  have hl : ∀ s ∈ live inputs, s.Opens := fun s hs => h s (List.mem_filter.mp hs).1
  rw [all_eq_joined, foldr_eq_chained]
  exact ⟨replies_joined hl, takesTurns_joined hl, takesTurns_chained hl⟩

/-- Logs its pulls, of which the second one panics and the third one reports the end. -/
def faltering : Source (List Nat) Nat Nat where
  pull n log :=
    (if n = 0 then .ok (.yield n) else if n = 1 then .error ⟨"gave up"⟩ else .ok .done, n + 1,
      log ++ [n])
  jump := none

/-- Inputs of which one panics at times and one is the shared empty stream. -/
def mixed : List (Stream (List Nat) Nat) :=
  [.source (Act.done 0) faltering, .empty, .items #[7, 8], .source (Act.done 1) faltering]

theorem concatenation_associates_mixed :
    (∀ s ∈ mixed, s.Opens) ∧ (all mixed).replies = (mixed.foldr concat .empty).replies ∧
      (all mixed).TakesTurns leftward (live mixed) ∧
      (mixed.foldr concat .empty).TakesTurns rightward (live mixed) := by
  have ho : ∀ s ∈ mixed, s.Opens := by
    intro s hs w
    simp only [mixed, List.mem_cons, List.not_mem_nil, or_false] at hs
    rcases hs with rfl | rfl | rfl | rfl <;> exact ⟨_, _, rfl⟩
  exact ⟨ho, concatenation_associates mixed ho⟩

end Stream

end PullStream
