import PullStream.Proofs.Concatenation
import PullStream.Proofs.Cursor.Recital
import PullStream.Proofs.Cursor.Stepwise
import PullStream.Proofs.Cursor.UpToEnd
import PullStream.Proofs.Cursor.Walk

/-!
# Streams of given elements

There are many ways to make a stream of the same elements. Its cursors jump over shared storage,
walk down a list, apply a function to an index, or go from one part to the next, and what is left of
them at the end is something else each time. For their holder they are one: all of them answer as
the list of the elements left does, which `Query.told` and `Query.left` spell out.

A stream over the cursors of another one keeps a second mark of the end. It is only put on a cursor
that has ended by itself, so up to the end the two go in lockstep, whatever the other stream is. Behind
the end the mark can only show if a supplier is asked again there that does not rest.
-/

set_option autoImplicit false

namespace PullStream

variable {W α : Type}

/-! ## Answers about a list -/

namespace Query

/-- The answer when these elements are left. -/
def told (xs : List α) : Query W → Answer α
  | .call .step => .replied (.stepped (.ofOption xs.head?))
  | .call (.advanceBy n) => .replied (.advanced (decide (n ≤ xs.length)))
  | .call (.meanwhile _) => .replied .waited
  | .next => .element xs.head?
  | .nth n => .element xs[n]?

/-- The elements that are left then. -/
def left (xs : List α) : Query W → List α
  | .call .step | .next => xs.tail
  | .call (.advanceBy n) => xs.drop n
  | .call (.meanwhile _) => xs
  | .nth n => xs.drop (n + 1)

/-- The world is left alone by all but what happens meanwhile. -/
def after (w : W) : Query W → W
  | .call (.meanwhile change) => change w
  | _ => w

end Query

/-- The answers to queries made one after the other. -/
def listed (xs : List α) (w : W) : List (Query W) → List (Except Panic (Answer α) × W)
  | [] => []
  | q :: qs => (.ok (q.told xs), q.after w) :: listed (q.left xs) (q.after w) qs

namespace Cursor

variable {c d : Cursor W α} {m n : Nat} {xs ys : List α} {a : α} {w : W}

/-- The cursor has just these elements left, and nothing else about it shows. -/
structure Lists (c : Cursor W α) (xs : List α) : Prop where
  recites : ∃ n, c.Recites n xs
  strides : c.Strides
  firm : c.Firm

theorem Lists.stepped (h : c.Lists xs) {x : Except Panic (Step α)} {v : W}
    (hs : Settles (c.step · w) (x, d, v)) (hd : d.Recites m ys) : d.Lists ys := by
  have hw : c.Walks [⟨w, x, v⟩] d := .cons hs .nil
  exact ⟨⟨m, hd⟩, hw.strides h.strides, hw.firm h.firm⟩

theorem Recites.step_cons (h : c.Recites n (a :: xs)) (w : W) :
    ∃ d m, Settles (c.step · w) (.ok (.yield a), d, w) ∧ d.Recites m xs := by
  generalize hx : a :: xs = ys at h
  induction h with
  | done => cases hx
  | silent h _ ih =>
    obtain ⟨d, m, hs, hd⟩ := ih hx
    exact ⟨d, m, settles_step_silent (h w) hs, hd⟩
  | yield h hd =>
    cases hx
    exact ⟨_, _, settles_step_yield (h w), hd⟩

theorem Recites.step_nil (h : c.Recites n ([] : List α)) (w : W) :
    ∃ d, Settles (c.step · w) (.ok .done, d, w) := by
  generalize hx : [] = ys at h
  induction h with
  | done h => exact ⟨_, settles_step_done (h w)⟩
  | silent h _ ih =>
    obtain ⟨d, hs⟩ := ih hx
    exact ⟨d, settles_step_silent (h w) hs⟩
  | yield => cases hx

theorem Lists.step_cons (h : c.Lists (a :: xs)) (w : W) :
    ∃ d, Settles (c.step · w) (.ok (.yield a), d, w) ∧ d.Lists xs := by
  obtain ⟨n, hr⟩ := h.recites
  obtain ⟨d, m, hs, hd⟩ := hr.step_cons w
  exact ⟨d, hs, h.stepped hs hd⟩

/-- A cursor that has reported its end does so again at once. -/
theorem Lists.step_nil (h : c.Lists []) (w : W) :
    ∃ d, Settles (c.step · w) (.ok .done, d, w) ∧ d.Lists ([] : List α) := by
  obtain ⟨n, hr⟩ := h.recites
  obtain ⟨d, hs⟩ := hr.step_nil w
  obtain ⟨fuel, hf⟩ := hs.comes
  have he := ended_of_step h.firm hf
  exact ⟨d, hs, h.stepped hs (.done he.tick : d.Recites 1 [])⟩

theorem Lists.step (h : c.Lists xs) (w : W) :
    ∃ d, Settles (c.step · w) (.ok (.ofOption xs.head?), d, w) ∧ d.Lists xs.tail := by
  cases xs with
  | nil => exact h.step_nil w
  | cons a xs => exact h.step_cons w

theorem Lists.next (h : c.Lists xs) (w : W) :
    ∃ d, Settles (c.next · w) (.ok xs.head?, d, w) ∧ d.Lists xs.tail := by
  obtain ⟨d, hs, hd⟩ := h.step w
  refine ⟨d, ?_, hd⟩
  rw [← Step.toOption_ofOption xs.head?]
  exact hs.map _

theorem Lists.crosses (h : c.Lists xs) (n : Nat) (w : W) :
    ∃ d, c.Crosses n w (.ok (decide (n ≤ xs.length)), d, w) ∧ d.Lists (xs.drop n) := by
  induction n generalizing c xs with
  | zero => exact ⟨c, by simpa using Crosses.here, h⟩
  | succ n ih =>
    cases xs with
    | nil =>
      obtain ⟨d, hs, hd⟩ := h.step_nil w
      obtain ⟨fuel, hf⟩ := hs.comes
      exact ⟨d, by simpa using crosses_of_step_done hf, hd⟩
    | cons a xs =>
      obtain ⟨d, hs, hd⟩ := h.step_cons w
      obtain ⟨fuel, hf⟩ := hs.comes
      obtain ⟨e, hc, he⟩ := ih hd
      exact ⟨e, by simpa using crosses_of_step_yield hf hc, he⟩

theorem Lists.advanceBy (h : c.Lists xs) (n : Nat) (w : W) :
    ∃ d, Settles (c.advanceBy · n w) (.ok (decide (n ≤ xs.length)), d, w) ∧
      d.Lists (xs.drop n) := by
  obtain ⟨d, hc, hd⟩ := h.crosses n w
  exact ⟨d, hc.settles_advanceBy h.strides h.firm.inBounds, hd⟩

theorem Lists.nth (h : c.Lists xs) (n : Nat) (w : W) :
    ∃ d, Settles (c.nth · n w) (.ok xs[n]?, d, w) ∧ d.Lists (xs.drop (n + 1)) := by
  obtain ⟨d, ha, hd⟩ := h.advanceBy n w
  by_cases hn : n ≤ xs.length
  · obtain ⟨e, hs, he⟩ := hd.step w
    rw [decide_eq_true hn] at ha
    rw [List.tail_drop] at he
    have hx : xs[n]? = (Step.ofOption (xs.drop n).head?).toOption := by simp
    rw [hx]
    exact ⟨e, settles_nth_true ha hs, he⟩
  · have hl : xs.length ≤ n := by omega
    rw [decide_eq_false hn] at ha
    rw [List.drop_eq_nil_of_le hl] at hd
    rw [List.getElem?_eq_none hl, List.drop_eq_nil_of_le (Nat.le_succ_of_le hl)]
    exact ⟨d, settles_nth_false ha, hd⟩

theorem Lists.query (h : c.Lists xs) (q : Query W) (w : W) :
    ∃ d, Settles (c.query · w q) (.ok (q.told xs), d, q.after w) ∧ d.Lists (q.left xs) := by
  rcases q with (_ | n | change) | _ | n
  · obtain ⟨d, hs, hd⟩ := h.step w
    exact ⟨d, (hs.map _).map _, hd⟩
  · obtain ⟨d, hs, hd⟩ := h.advanceBy n w
    exact ⟨d, (hs.map _).map _, hd⟩
  · exact ⟨c, settles_of_first fun _ => rfl, h⟩
  · obtain ⟨d, hs, hd⟩ := h.next w
    exact ⟨d, hs.map _, hd⟩
  · obtain ⟨d, hs, hd⟩ := h.nth n w
    exact ⟨d, hs.map _, hd⟩

/-- A cursor answers as the list of the elements that it has left. -/
theorem Lists.answers (h : c.Lists xs) (w : W) (qs : List (Query W)) :
    Settles (c.answers · w qs) (listed xs w qs) := by
  induction qs generalizing c xs w with
  | nil => exact settles_of_first fun _ => rfl
  | cons q qs ih =>
    obtain ⟨d, hs, hd⟩ := h.query q w
    refine settles_of_both (ih hd (q.after w)) hs fun fuel ha hq => ?_
    simp only [Cursor.answers, hq, ha, Option.map_some, listed]

end Cursor

/-! ## Sessions over the elements -/

namespace Cursor

variable {c d : Cursor W α} {m n : Nat} {xs ys : List α} {w : W}

theorem Recites.second (h : c.Recites n xs) : (second c).Recites n xs := by
  induction h with
  | done h => exact .done fun w => by rw [tick_second, h]; rfl
  | silent h _ ih => exact .silent (fun w => by rw [tick_second, h]; rfl) ih
  | yield h _ ih => exact .yield (fun w => by rw [tick_second, h]; rfl) ih

theorem Recites.first {later : Stream W α} (h : c.Recites m xs) (hl : later.cursor = Act.done d)
    (hd : d.Recites n ys) : (first c later).Recites (m + n) (xs ++ ys) := by
  induction h with
  | @done m c _ h =>
    have ho : ∀ w, (Cursor.first c later).tick w = (.silent, .second d, w) := by
      intro w
      rw [tick_first, h]
      simp only [Moves.opening, hl, Act.done]
    rw [Nat.add_right_comm]
    exact .silent ho (hd.second.mono (Nat.le_add_left n m))
  | @silent m _ _ _ h _ ih =>
    rw [Nat.add_right_comm]
    exact .silent (fun w => by rw [tick_first, h]) ih
  | yield h _ ih =>
    rw [Nat.add_right_comm]
    exact .yield (fun w => by rw [tick_first, h]) ih

end Cursor

namespace Stream

open Cursor

variable {s t : Stream W α} {xs ys : List α}

/-- Sessions are opened without an effect and have just these elements. -/
structure Lists (s : Stream W α) (xs : List α) : Prop where
  opened : ∃ c, s.cursor = Act.done c ∧ c.Lists xs
  rests : s.Rests
  nothing : s.knownEmpty = true → xs = []

/-- Walks along storage by an index of its own. -/
def walking (xs : Array α) (i : Nat) (w : W) : Except Panic (Step α) × Nat × W :=
  match xs[i]? with
  | some a => (.ok (.yield a), i + 1, w)
  | none => (.ok .done, i, w)

theorem Lists.concat (hs : s.Lists xs) (ht : t.Lists ys) : (s.concat t).Lists (xs ++ ys) := by
  cases hk : s.knownEmpty with
  | true =>
    rw [eq_empty hk, empty_concat, hs.nothing hk]
    exact ht
  | false =>
    cases hl : t.knownEmpty with
    | true =>
      rw [eq_empty hl, concat_empty, ht.nothing hl, List.append_nil]
      exact hs
    | false =>
      obtain ⟨c, hc, ⟨m, hr⟩, -, hi, -⟩ := hs.opened
      obtain ⟨d, hd, ⟨n, hr'⟩, -⟩ := ht.opened
      rw [concat_of_live hk hl]
      refine ⟨⟨.first c t, ?_, ⟨m + n, hr.first hd hr'⟩, trivial, hi, ht.rests⟩, ht.rests, nofun⟩
      simp only [cursor, hc]
      rfl

theorem Lists.foldl {parts : List (Stream W α × List α)} (h : ∀ x ∈ parts, x.1.Lists x.2)
    (hs : s.Lists xs) :
    ((parts.map Prod.fst).foldl Stream.concat s).Lists (xs ++ parts.flatMap Prod.snd) := by
  induction parts generalizing s xs with
  | nil => simpa using hs
  | cons x parts ih =>
    obtain ⟨hx, h⟩ := List.forall_mem_cons.mp h
    rw [List.flatMap_cons, ← List.append_assoc]
    exact ih h (hs.concat hx)

theorem cursor_eq (s : Stream W α) : s.cursor = s.cursor.andThen fun c => Act.done c :=
  (Act.andThen_done s.cursor).symm

/-- A list in three parts, of which one is nothing. -/
def split : List (Stream Unit Nat × List Nat) :=
  [(ofArray #[1, 2], [1, 2]), (view #[], []), (generate (Act.done 0) (walking #[3]), [3])]

/-- Promises to stay at its end, and takes notes whenever it is asked there. -/
def insistent : Source (List Nat) Nat Nat where
  pull n log := (.ok .done, n + 1, n :: log)
  jump := none
  again := true

/-- The mark shows behind the end when a supplier does not rest there. -/
theorem reopen_shows : (source (Act.done 0) insistent).reopen.answers ≠
    (source (Act.done 0) insistent).answers := by
  intro h
  have ha := congrFun (congrFun (congrFun h 1) [.next, .next]) []
  have hm : ((source (Act.done 0) insistent).reopen.answers 1 [.next, .next]) [] =
      (.ok (some [(.ok (.element none), [0]), (.ok (.element none), [0])]), []) := rfl
  rw [hm] at ha
  cases ha

end Stream

end PullStream
