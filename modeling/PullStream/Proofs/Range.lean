import PullStream.Nested
import PullStream.Proofs.Cursor.Advance
import PullStream.Proofs.Cursor.Termination
import PullStream.Proofs.Tree.Survey

/-!
# Numbers in range

The numbers of the model have no bounds, and those of a machine are words. `Admits` says which
states a session with a stream may be in, in all the cursors that it is made of: an index lies within
its storage, no more turns are left than were granted, and the streams that a descent has open lie
one level below the other, each where the visit has led into it. Sessions begin so and every move
keeps it, so it holds after any calls and also in the middle of one, with or without panics. From
there everything that a move works out fits into a word, even where the greatest word is the bound.
-/

set_option autoImplicit false

namespace PullStream

open Cursor Moves Relation

variable {W α β ι : Type}

/-! ## States of sessions -/

/-- A session with the stream may be in the state of the cursor, as far as its numbers go. -/
inductive Stream.Admits : {α : Type} → Stream W α → Cursor W α → Prop
  | empty {α : Type} : Admits (.empty : Stream W α) .empty
  | storage {α : Type} {xs : Array α} {index : Nat} (hi : index ≤ xs.size) :
      Admits (.items xs) (.slice xs index)
  | source {σ α : Type} {start : Act W σ} {src : Source W σ α} {ended : Bool} {state : σ} :
      Admits (.source start src) (.source src ended state)
  | fused {α : Type} {s : Stream W α} {c : Cursor W α} {ended : Bool} (h : Admits s c) :
      Admits (.fused s) (.fused ended c)
  | deferred {ι α : Type} {start : Act W ι} {book : ι → Stream W α} {i : ι} {c : Cursor W α}
      (h : Admits (book i) c) : Admits (.deferred start book) c
  | mapping {β α : Type} {f : β → Act W α} {s : Stream W β} {c : Cursor W β} (h : Admits s c) :
      Admits (.mapping f s) (.map f c)
  | filtering {α : Type} {p : α → Act W Bool} {s : Stream W α} {c : Cursor W α} (h : Admits s c) :
      Admits (.filtering p s) (.filter p c)
  | choosing {β α : Type} {f : β → Act W (Option α)} {s : Stream W β} {c : Cursor W β}
      (h : Admits s c) : Admits (.choosing f s) (.filterMap f c)
  | first {α : Type} {a b : Stream W α} {c : Cursor W α} (h : Admits a c) :
      Admits (.joining a b) (.first c b)
  | second {α : Type} {a b : Stream W α} {c : Cursor W α} (h : Admits b c) :
      Admits (.joining a b) (.second c)
  | secondLost {α : Type} {a b : Stream W α} : Admits (.joining a b) .empty
  | skipping {α : Type} {n pending : Nat} {s : Stream W α} {c : Cursor W α} (h : Admits s c) :
      Admits (.skipping n s) (.tail pending c)
  | capping {α : Type} {max remaining : Nat} {s : Stream W α} {c : Cursor W α} (h : Admits s c)
      (hr : remaining ≤ max) : Admits (.capping max s) (.limit remaining c)
  | deduplicating {κ α : Type} {eq : DecidableEq κ} {key : α → Act W κ} {s : Stream W α}
      {seen : List κ} {c : Cursor W α} (h : Admits s c) :
      Admits (.deduplicating eq key s) (.distinct eq key seen c)
  | excluding {κ α : Type} {eq : DecidableEq κ} {key : α → Act W κ} {other s : Stream W α}
      {c : Cursor W α} (h : Admits s c) :
      Admits (.excluding eq key other s) (.excludeFresh eq key other c)
  | draining {κ α : Type} {eq : DecidableEq κ} {key : α → Act W κ} {other s : Stream W α}
      {d c : Cursor W α} {keys : List κ} (hd : Admits other d) (h : Admits s c) :
      Admits (.excluding eq key other s) (.excludeDrain eq key other d keys c)
  | drained {κ α : Type} {eq : DecidableEq κ} {key : α → Act W κ} {other s : Stream W α}
      {c : Cursor W α} {keys : List κ} (h : Admits s c) :
      Admits (.excluding eq key other s) (.excludeReady eq key keys c)
  | flattening {ι α : Type} {book : ι → Stream W α} {s : Stream W ι} {c : Cursor W ι}
      (h : Admits s c) : Admits (.flattening book s) (.flatten book c)
  | inside {ι α : Type} {book : ι → Stream W α} {s : Stream W ι} {i : ι} {inner : Cursor W α}
      {c : Cursor W ι} (hi : Admits (book i) inner) (h : Admits s c) :
      Admits (.flattening book s) (.flattenIn book inner c)
  | descending {ι β α : Type} {visit : Nat → β → Act W (Visit ι α)} {book : ι → Stream W β}
      {s : Stream W β} {c : Cursor W β} (h : Admits s c) :
      Admits (.descending visit book s) (.descend visit book c)
  | deeper {ι β α : Type} {visit : Nat → β → Act W (Visit ι α)} {book : ι → Stream W β}
      {s : Stream W β} {level : Nat} {i : ι} {top : Cursor W β} {rest : Cursor W α}
      (hv : Enters visit level i) (ht : Admits (book i) top)
      (hr : Admits (.descending visit book s) rest) (hl : rest.height = level + 1) :
      Admits (.descending visit book s) (.dive visit book (level + 1) top rest)
  | ascended {ι β α : Type} {visit : Nat → β → Act W (Visit ι α)} {book : ι → Stream W β}
      {s : Stream W β} : Admits (.descending visit book s : Stream W α) .empty

theorem Stream.cursor_admitted (s : Stream W α) {c : Cursor W α} {w w' : W}
    (h : s.cursor w = (.ok c, w')) : s.Admits c := by
  induction s generalizing w w' with
  | empty => cases h; exact .empty
  | items xs => cases h; exact .storage (Nat.zero_le _)
  | deferred start book ih =>
    obtain ⟨i, v, -, hi⟩ := Act.andThen_ok h
    exact .deferred (ih i hi)
  | source start src =>
    obtain ⟨s, v, -, hc⟩ := Act.andThen_ok h
    cases hc
    exact .source
  | capping n s ih =>
    obtain ⟨d, v, hd, hc⟩ := Act.andThen_ok h
    cases hc
    exact .capping (ih hd) (Nat.le_refl n)
  | fused _ ih | mapping _ _ ih | filtering _ _ ih | choosing _ _ ih | joining _ _ ih
  | skipping _ _ ih | deduplicating _ _ _ ih | excluding _ _ _ _ _ ih | flattening _ _ _ ih
  | descending _ _ _ _ ih =>
    obtain ⟨d, v, hd, hc⟩ := Act.andThen_ok h
    cases hc
    constructor
    exact ih hd

namespace Stream.Admits

variable {s : Stream W α} {c d : Cursor W α}

/-- A move leads from a state of a session to another one. -/
theorem becomes (h : s.Admits c) (hb : c.Becomes d) : s.Admits d := by
  induction h with
  | empty | secondLost | ascended =>
    cases hb
    constructor
  | storage hi =>
    cases hb with
    | stay => exact .storage hi
    | slice hj => exact .storage (hj hi)
  | source =>
    cases hb <;> exact .source
  | fused h ih =>
    cases hb with
    | stay => exact .fused h
    | fused hb => exact .fused (ih hb)
  | deferred h ih => exact .deferred (ih hb)
  | mapping h ih =>
    cases hb with
    | stay => exact .mapping h
    | map hb => exact .mapping (ih hb)
  | filtering h ih =>
    cases hb with
    | stay => exact .filtering h
    | filter hb => exact .filtering (ih hb)
  | choosing h ih =>
    cases hb with
    | stay => exact .choosing h
    | filterMap hb => exact .choosing (ih hb)
  | first h ih =>
    cases hb with
    | stay => exact .first h
    | first hb => exact .first (ih hb)
    | handOver ho => exact .second (cursor_admitted _ ho)
    | handOverLost => exact .secondLost
  | second h ih =>
    cases hb with
    | stay => exact .second h
    | second hb => exact .second (ih hb)
  | skipping h ih =>
    cases hb with
    | stay => exact .skipping h
    | tail hb => exact .skipping (ih hb)
  | capping h hr ih =>
    cases hb with
    | stay => exact .capping h hr
    | limit hb hm => exact .capping (ih hb) (Nat.le_trans hm hr)
  | deduplicating h ih =>
    cases hb with
    | stay => exact .deduplicating h
    | distinct hb => exact .deduplicating (ih hb)
  | excluding h =>
    cases hb with
    | stay => exact .excluding h
    | drainOpened ho => exact .draining (cursor_admitted _ ho) h
  | draining hd h ihd =>
    cases hb with
    | stay => exact .draining hd h
    | drain hb => exact .draining (ihd hb) h
    | drainLost => exact .excluding h
    | drained => exact .drained h
  | drained h ih =>
    cases hb with
    | stay => exact .drained h
    | excludeReady hb => exact .drained (ih hb)
  | flattening h ih =>
    cases hb with
    | stay => exact .flattening h
    | flatten hb => exact .flattening (ih hb)
    | innerOpened hb ho => exact .inside (cursor_admitted _ ho) (ih hb)
  | inside hi h ihi =>
    cases hb with
    | stay => exact .inside hi h
    | flattenIn hb => exact .inside (ihi hb) h
    | innerEnded => exact .flattening h
  | descending h ih =>
    cases hb with
    | stay => exact .descending h
    | descend hb => exact .descending (ih hb)
    | descentEnded => exact .ascended
    | entered hb hv ho => exact .deeper hv (cursor_admitted _ ho) (.descending (ih hb)) rfl
  | deeper hv ht hr hl iht =>
    cases hb with
    | stay => exact .deeper hv ht hr hl
    | dive hb => exact .deeper hv (iht hb) hr hl
    | enteredDeeper hb hv' ho =>
      exact .deeper hv' (cursor_admitted _ ho) (.deeper hv (iht hb) hr hl) (congrArg (· + 1) hl)
    | surfaced => exact hr

theorem moved (h : s.Admits c) (hm : ReflTransGen Cursor.Moved c d) : s.Admits d :=
  keeps_of_becomes (P := s.Admits) (fun hb hc => hc.becomes hb) (becomes_of_moved hm) h

end Stream.Admits

/-! ## Open levels -/

/-- The levels of the streams that a descent has open, the outermost first. -/
def Cursor.levels : {α : Type} → Cursor W α → List Nat
  | _, .descend _ _ _ => [0]
  | _, .dive _ _ level _ rest => rest.levels ++ [level]
  | _, _ => []

theorem Stream.Admits.levels_eq {s : Stream W α} {c : Cursor W α} (h : s.Admits c) :
    c.levels = List.range c.height := by
  induction h with
  | deferred _ ih => exact ih
  | deeper _ _ _ hl _ ihr => rw [Cursor.levels, Cursor.height, ihr, hl, ← List.range_succ]
  | _ => rfl

section Descents

variable {visit : Nat → β → Act W (Visit ι α)} {book : ι → Stream W β} {s : Stream W β}
  {c : Cursor W α}

/-- Each stream but the outermost one is open because the visit has led into it. -/
theorem Stream.Admits.entered (h : (Stream.descending visit book s).Admits c) {level : Nat}
    (hl : level + 1 ∈ c.levels) : ∃ i, Enters visit level i := by
  generalize ht : Stream.descending visit book s = t at h
  induction h with
  | descending | ascended => simp [Cursor.levels] at hl
  | @deeper _ _ _ _ _ _ n i _ _ hv _ _ _ _ ihr =>
    cases ht
    rw [Cursor.levels, List.mem_append, List.mem_singleton] at hl
    rcases hl with hl | hl
    · exact ihr hl rfl
    · obtain rfl : level = n := Nat.succ.inj hl
      exact ⟨i, hv⟩
  | _ => cases ht

theorem enters_flatVisit {depth level : Nat} {i : ι}
    (h : Enters (W := W) (α := Nested ι α) (Stream.flatVisit depth) level i) : level < depth := by
  obtain ⟨x, w, v, h⟩ := h
  cases x with
  | value a => simp [Stream.flatVisit, Act.done] at h
  | stream j =>
    by_cases hl : level < depth
    · exact hl
    · simp [Stream.flatVisit, hl, Act.done] at h

theorem Stream.Admits.level_le {depth : Nat} {book : ι → Stream W (Nested ι α)}
    {s : Stream W (Nested ι α)} {c : Cursor W (Nested ι α)}
    (h : (Stream.descending (Stream.flatVisit depth) book s).Admits c) {level : Nat}
    (hl : level ∈ c.levels) : level ≤ depth := by
  cases level with
  | zero => exact Nat.zero_le depth
  | succ level =>
    obtain ⟨i, hi⟩ := h.entered hl
    exact enters_flatVisit hi

end Descents

/-! ## Words -/

namespace Word

/-- Words hold the numbers below this one. -/
def size : Nat := UInt64.size

/-- The sum of two words, if it is one. -/
def add? (a b : Nat) : Option Nat := if a + b < size then some (a + b) else none

/-- The difference of two words, if it is one. -/
def sub? (a b : Nat) : Option Nat := if b ≤ a then some (a - b) else none

theorem add?_eq {a b : Nat} (h : a + b < size) : add? a b = some (a + b) := if_pos h

theorem sub?_eq {a b : Nat} (h : b ≤ a) : sub? a b = some (a - b) := if_pos h

end Word

namespace Moves

/-- A move over storage, worked out in words. -/
def sliceTick? (xs : Array α) (index : Nat) (w : W) : Option (Move α × Cursor W α × W) :=
  match xs[index]? with
  | some a => (Word.add? index 1).map fun next => (.yield a, .slice xs next, w)
  | none => some (.done, .slice xs index, w)

/-- A jump over storage, worked out in words. -/
def sliceSkip? (xs : Array α) (index n : Nat) (w : W) : Option (Skip × Cursor W α × W) :=
  (Word.sub? xs.size index).bind fun left =>
    if n ≤ left then (Word.add? index n).map fun next => (.finished true, .slice xs next, w)
    else some (.finished false, .slice xs xs.size, w)

/-- A move of a limited cursor, worked out in words. -/
def limitTick? (remaining : Nat) (c : Cursor W α) (w : W) : Option (Move α × Cursor W α × W) :=
  if remaining = 0 then some (.done, .limit 0 c, w)
  else (Word.sub? remaining 1).map fun left =>
    match c.tick w with
    | (.silent, c, w) => (.silent, .limit remaining c, w)
    | (.yield a, c, w) => (.yield a, .limit left c, w)
    | (.done, c, w) => (.done, .limit 0 c, w)
    | (.panic p, c, w) => (.panic p, .limit left c, w)

/-- What is done with an element of a nested stream, worked out in words. -/
def flatDescent? (depth : Nat) (book : ι → Stream W (Nested ι α)) (level : Nat) (x : Nested ι α)
    (rest : Cursor W (Nested ι α)) (w : W) :
    Option (Move (Nested ι α) × Cursor W (Nested ι α) × W) :=
  match x with
  | .value a => some (.yield (.value a), rest, w)
  | .stream i =>
    if level < depth then
      match (book i).cursor w with
      | (.ok c, w) => (Word.add? level 1).map fun next =>
          (.silent, .dive (Stream.flatVisit depth) book next c rest, w)
      | (.error p, w) => some (.panic p, rest, w)
    else some (.yield (.stream i), rest, w)

theorem sliceTick?_eq {xs : Array α} {index : Nat} (hx : xs.size < Word.size) (w : W) :
    sliceTick? xs index w = some ((Cursor.slice xs index).tick w) := by
  rw [sliceTick?, tick_slice]
  rcases ha : xs[index]? with _ | a
  · rfl
  · obtain ⟨hlt, -⟩ := Array.getElem?_eq_some_iff.mp ha
    rw [Word.add?_eq (Nat.lt_of_le_of_lt hlt hx)]
    rfl

theorem sliceSkip?_eq {xs : Array α} {index : Nat} (hi : index ≤ xs.size)
    (hx : xs.size < Word.size) (n : Nat) (w : W) :
    sliceSkip? xs index n w = some ((Cursor.slice xs index).skip n w) := by
  rw [sliceSkip?, Word.sub?_eq hi, skip_slice, Option.bind_some]
  split
  · have hn : index + n < Word.size := by omega
    rw [Word.add?_eq hn]
    rfl
  · rfl

theorem limitTick?_eq (remaining : Nat) (c : Cursor W α) (w : W) :
    limitTick? remaining c w = some ((Cursor.limit remaining c).tick w) := by
  cases remaining with
  | zero => rfl
  | succ left =>
    rw [limitTick?, if_neg (Nat.succ_ne_zero left), Word.sub?_eq (Nat.succ_pos left),
      tick_limit_succ]
    rcases c.tick w with ⟨_ | _ | _ | _, d, v⟩ <;> rfl

theorem flatDescent?_eq {depth level : Nat} (hd : depth < Word.size)
    (book : ι → Stream W (Nested ι α)) (x : Nested ι α) (rest : Cursor W (Nested ι α)) (w : W) :
    flatDescent? depth book level x rest w =
      some (descent (Stream.flatVisit depth) book level x rest w) := by
  cases x with
  | value a => rfl
  | stream i =>
    by_cases hl : level < depth
    · have hn : level + 1 < Word.size := by omega
      simp only [flatDescent?, descent, Stream.flatVisit, Act.done, opening, hl, if_true]
      rcases (book i).cursor w with ⟨p | c, v⟩
      · rfl
      · rw [Word.add?_eq hn]
        rfl
    · simp only [flatDescent?, descent, Stream.flatVisit, Act.done, hl, if_false]

end Moves

/-! ## Traversals -/

namespace TreeStream

variable {ν : Type} {t : TreeStream W ν ι} {c d : Cursor W ν} {n : ν} {w v : W}

theorem admits_ascend (h : t.stream.Admits c) : t.stream.Admits c.ascend := by
  rw [stream] at h ⊢
  cases h with
  | descending | ascended => exact .ascended
  | deeper _ _ hr _ => exact hr

theorem height_descent {rest : Cursor W ν} {level : Nat} {b : ν} (hr : 1 ≤ rest.height)
    (h : descent t.visit t.book level b rest w = (.yield n, d, v)) : 2 ≤ d.height := by
  rw [descent_eq_enter] at h
  rcases he : t.enter b w with ⟨p | c, u⟩ <;> rw [he] at h
  · cases h
  · cases h
    exact Nat.succ_le_succ hr

/-- With a node that is produced the stream of its children is open, and the one that it came
from. -/
theorem height_of_yield (h : t.stream.Admits c) (hy : c.tick w = (.yield n, d, v)) :
    2 ≤ d.height := by
  rw [stream] at h
  cases h with
  | ascended => cases hy
  | @descending _ _ _ _ _ _ c h =>
    rw [tick_descend] at hy
    rcases hc : c.tick w with ⟨_ | b | _ | p, e, u⟩ <;> rw [hc] at hy
    · cases hy
    · have he : 1 ≤ (descend t.visit t.book e).height := Nat.le_refl 1
      exact height_descent he hy
    · cases hy
    · cases hy
  | @deeper _ _ _ _ _ _ level i top rest hv ht hr hl =>
    rw [tick_dive] at hy
    rcases hc : top.tick w with ⟨_ | b | _ | p, e, u⟩ <;> rw [hc] at hy
    · cases hy
    · have he : 1 ≤ (dive t.visit t.book (level + 1) e rest).height := Nat.le_add_left 1 _
      exact height_descent he hy
    · cases hy
    · cases hy

theorem base_le (t : TreeStream W ν ι) : t.base ≤ 2 := by
  unfold base
  split <;> omega

/-- The last move of a step that produces a node. -/
theorem height_of_step {fuel : Nat} (h : t.stream.Admits c)
    (hs : c.step fuel w = some (.ok (.yield n), d, v)) : 2 ≤ d.height := by
  induction fuel generalizing c w with
  | zero => cases hs
  | succ fuel ih =>
    rw [Cursor.step] at hs
    rcases ht : c.tick w with ⟨_ | b | _ | p, e, u⟩ <;> rw [ht] at hs
    · exact ih (h.becomes (becomes_of_tick ht)) hs
    · cases hs
      exact height_of_yield h ht
    · cases hs
    · cases hs

/-- The last node that is left out has been produced like any other. -/
theorem height_of_crosses {k : Nat} {r : Except Panic Bool × Cursor W ν × W}
    (h : t.stream.Admits c) (hc : Crosses c (k + 1) w r) (hr : r.1 = .ok true) :
    2 ≤ r.2.1.height := by
  generalize hn : k + 1 = n at hc
  induction hc generalizing k with
  | here => cases hn
  | silent ht _ ih => exact ih (h.becomes (becomes_of_tick ht)) hr hn
  | @yield n _ _ _ _ _ _ ht hc ih =>
    cases n with
    | zero =>
      cases hc
      exact height_of_yield h ht
    | succ n => exact ih (h.becomes (becomes_of_tick ht)) hr rfl
  | done | panic => cases hr

end TreeStream

namespace TreeCursor

variable {ν : Type} {t : TreeStream W ν ι} {t₀ u x : TreeCursor W ν} {n : ν} {w v v' : W}

/-- The open streams that do not count are not more than those that are open. -/
def DepthExact (x : TreeCursor W ν) : Prop :=
  x.base ≤ x.path.height ∧ Word.sub? x.path.height x.base = some x.depth

theorem settle_base (t : TreeCursor W ν) : t.settle.base = t.base := by
  unfold settle
  split <;> rfl

theorem along_base {ρ : Type} {use : Cursor W ν → W → Option (Except Panic ρ × Cursor W ν × W)}
    {r : Except Panic ρ} (h : u.along use v = some (r, x, v')) : x.base = u.base := by
  rw [(along_eq_some h).2]
  exact u.settle_base

theorem advanceBy_succ (fuel k : Nat) (t : TreeCursor W ν) (w : W) :
    t.advanceBy fuel (k + 1) w = t.along (Cursor.advanceBy fuel (k + 1)) w := rfl

theorem Later.base (h : t₀.Later u) : u.base = t₀.base := by
  induction h with
  | same => rfl
  | prune _ ih => exact ih
  | step _ hs ih => exact (along_base hs).trans ih
  | @advanceBy _ _ _ k _ _ _ _ hs ih =>
    cases k with
    | zero => cases hs; exact ih
    | succ k => exact (along_base hs).trans ih

section Opened

variable (ho : t.cursor w = (.ok t₀, v)) (hl : t₀.Later u)

include ho

theorem opened_base : t₀.base = t.base := by
  obtain ⟨c, v, -, hc⟩ := Act.andThen_ok ho
  cases hc
  rfl

include hl

/-- Pruning leads to states that the stream admits as well. -/
theorem admitted : t.stream.Admits u.path := by
  obtain ⟨c, v, hp, hc⟩ := Act.andThen_ok ho
  cases hc
  exact hl.keeps (P := t.stream.Admits) (fun hb hc => hc.becomes hb) TreeStream.admits_ascend
    (Stream.cursor_admitted _ hp)

theorem settle_admitted : t.stream.Admits u.settle.path :=
  settle_keeps (P := t.stream.Admits) TreeStream.admits_ascend (admitted ho hl)

/-- A call that leaves two streams open leaves as many as do not count. -/
theorem depthExact_of_along {ρ : Type} {r : Except Panic ρ}
    {use : Cursor W ν → W → Option (Except Panic ρ × Cursor W ν × W)} {w w' : W}
    (hs : u.along use w = some (r, x, w')) (hp : 2 ≤ x.path.height) : x.DepthExact := by
  have hb : x.base ≤ x.path.height := by
    rw [along_base hs, hl.base, opened_base ho]
    exact Nat.le_trans t.base_le hp
  exact ⟨hb, Word.sub?_eq hb⟩

theorem depthExact_of_step {fuel : Nat} {w w' : W}
    (hs : u.step fuel w = some (.ok (.yield n), x, w')) : x.DepthExact :=
  depthExact_of_along ho hl hs
    (TreeStream.height_of_step (settle_admitted ho hl) (along_eq_some hs).1)

theorem depthExact_of_advanceBy {fuel k : Nat} {w w' : W}
    (hs : u.advanceBy fuel (k + 1) w = some (.ok true, x, w')) : x.DepthExact := by
  rw [advanceBy_succ] at hs
  have hus := settle_keeps (P := Cursor.Strides) Cursor.ascend_strides
    (hl.strides (t.cursor_strides ho))
  have hub := settle_inBounds (hl.inBounds (t.cursor_inBounds ho))
  have hc := crosses_of_advanceBy hus hub (along_eq_some hs).1
  exact depthExact_of_along ho hl hs
    (TreeStream.height_of_crosses (settle_admitted ho hl) hc rfl)

end Opened

end TreeCursor

/-- Sessions stay in the states that their stream admits, after any calls and also in the middle of
one, and none of these states leads out of the words. In all the cursors that are open an index lies
within its storage, so that neither what is left of it nor the index behind a jump of any length is
out of range. No more turns are left than were granted. The streams that a nested stream has open
lie at the levels `0`, `1`, ... from the outermost one on, none of them below the bound. Of a
traversal, pruned at any time, at least as many streams are open with each node that is produced as
do not count, so its depth is their difference. -/
theorem numbers_in_range (W : Type) :
    (∀ {α : Type} (s : Stream W α) (c₀ c d : Cursor W α) (w w' : W),
      s.cursor w = (.ok c₀, w') → c₀.Later c → ReflTransGen Cursor.Moved c d →
        s.Admits d ∧ d.InBounds) ∧
    (∀ {α : Type} (xs : Array α) (d : Cursor W α), (Stream.items xs).Admits d →
      ∃ index, d = .slice xs index ∧ index ≤ xs.size ∧
        (xs.size < Word.size → ∀ n w, sliceTick? xs index w = some (d.tick w) ∧
          sliceSkip? xs index n w = some (d.skip n w))) ∧
    (∀ {α : Type} (max : Nat) (s : Stream W α) (d : Cursor W α), (Stream.capping max s).Admits d →
      ∃ remaining c, d = .limit remaining c ∧ s.Admits c ∧ remaining ≤ max ∧
        ∀ w, limitTick? remaining c w = some (d.tick w)) ∧
    (∀ {ι α : Type} (depth : Nat) (book : ι → Stream W (Nested ι α)) (s : Stream W (Nested ι α))
        (d : Cursor W (Nested ι α)),
      (Stream.descending (Stream.flatVisit depth) book s).Admits d →
      d.levels = List.range d.height ∧ ∀ level ∈ d.levels, level ≤ depth ∧
        (depth < Word.size → ∀ x rest w, flatDescent? depth book level x rest w =
          some (descent (Stream.flatVisit depth) book level x rest w))) ∧
    ∀ {ν ι : Type} (t : TreeStream W ν ι) (t₀ u : TreeCursor W ν) (w w' : W),
      t.cursor w = (.ok t₀, w') → t₀.Later u →
      (∀ d, ReflTransGen Cursor.Moved u.settle.path d → t.stream.Admits d ∧ d.InBounds) ∧
      (∀ fuel n x v v', u.step fuel v = some (.ok (.yield n), x, v') → x.DepthExact) ∧
      ∀ fuel k x v v', u.advanceBy fuel (k + 1) v = some (.ok true, x, v') → x.DepthExact := by
  refine ⟨?_, ?_, ?_, ?_, ?_⟩
  · intro α s c₀ c d w w' h₀ hc hd
    have hm := hc.moved.trans hd
    exact ⟨(s.cursor_admitted h₀).moved hm, (s.cursor_inBounds h₀).moved hm⟩
  · intro α xs d h
    cases h with
    | storage hi =>
      exact ⟨_, rfl, hi, fun hx n w => ⟨sliceTick?_eq hx w, sliceSkip?_eq hi hx n w⟩⟩
  · intro α max s d h
    cases h with
    | capping h hr => exact ⟨_, _, rfl, h, hr, limitTick?_eq _ _⟩
  · intro ι α depth book s d h
    exact ⟨h.levels_eq, fun level hl => ⟨h.level_le hl, fun hd => flatDescent?_eq hd book⟩⟩
  · intro ν ι t t₀ u w w' h₀ hu
    have hb := TreeCursor.settle_inBounds (hu.inBounds (t.cursor_inBounds h₀))
    refine ⟨fun d hd => ⟨(TreeCursor.settle_admitted h₀ hu).moved hd, hb.moved hd⟩, ?_, ?_⟩
    · exact fun _ _ _ _ _ hs => TreeCursor.depthExact_of_step h₀ hu hs
    · exact fun _ _ _ _ _ hs => TreeCursor.depthExact_of_advanceBy h₀ hu hs

/-- The only element of this stream is the stream itself. -/
def bottomless (_ : Unit) : Stream Unit (Nested Unit Nat) := .items #[.stream ()]

theorem numbers_in_range_greatest :
    (Cursor.advanceBy 1 (Word.size - 1) (.slice #[7, 8, 9] 0 : Cursor Unit Nat) () =
        some (.ok false, .slice #[7, 8, 9] 3, ()) ∧
      sliceSkip? #[7, 8, 9] 3 (Word.size - 1) () =
        some (Cursor.skip (.slice #[7, 8, 9] 3) (Word.size - 1) ())) ∧
    (∃ c : Cursor Unit Nat, Cursor.Moved (.limit (Word.size - 1) (.slice #[7] 0)) c ∧
      (Stream.capping (Word.size - 1) (.items #[7])).Admits c ∧ ∃ d, c = .limit (Word.size - 2) d) ∧
    (∃ c, Cursor.Moved
        (.descend (Stream.flatVisit (Word.size - 1)) bottomless (.slice #[.stream ()] 0)) c ∧
      c.levels = [0, 1] ∧ ∀ level ∈ c.levels, level ≤ Word.size - 1) ∧
    TreeCursor.DepthExact ⟨.dive succession.visit succession.book 1 (.slice #[2] 0)
      (.descend succession.visit succession.book (.slice #[1] 1)), false, 1⟩ := by
  refine ⟨⟨rfl, ?_⟩, ?_, ?_, ?_⟩
  · have hs : Cursor.advanceBy 1 (Word.size - 1) (.slice #[7, 8, 9] 0 : Cursor Unit Nat) () =
        some (.ok false, .slice #[7, 8, 9] 3, ()) := rfl
    obtain ⟨ha, -⟩ := (numbers_in_range Unit).1 (.items #[7, 8, 9]) _ _ _ () () rfl
      (.advanceBy .same hs) .refl
    obtain ⟨_, hc, -, h⟩ := (numbers_in_range Unit).2.1 _ _ ha
    cases hc
    exact (h (by decide) (Word.size - 1) ()).2
  · have hm : Cursor.Moved (.limit (Word.size - 1) (.slice #[7] 0) : Cursor Unit Nat)
        (.limit (Word.size - 2) (.slice #[7] 1)) := .inl ⟨(), .yield 7, (), rfl⟩
    obtain ⟨ha, -⟩ := (numbers_in_range Unit).1 (.capping (Word.size - 1) (.items #[7])) _ _ _ ()
      () rfl .same (.single hm)
    exact ⟨_, hm, ha, _, rfl⟩
  · have hm : Cursor.Moved
        (.descend (Stream.flatVisit (Word.size - 1)) bottomless (.slice #[.stream ()] 0))
        (.dive (Stream.flatVisit (Word.size - 1)) bottomless 1 (.slice #[.stream ()] 0)
          (.descend (Stream.flatVisit (Word.size - 1)) bottomless (.slice #[.stream ()] 1))) :=
      .inl ⟨(), .silent, (), rfl⟩
    obtain ⟨ha, -⟩ := (numbers_in_range Unit).1
      (.descending (Stream.flatVisit (Word.size - 1)) bottomless (.items #[.stream ()])) _ _ _ () ()
      rfl .same (.single hm)
    exact ⟨_, hm, rfl, fun level hl => (((numbers_in_range Unit).2.2.2.1 _ _ _ _ ha).2 level hl).1⟩
  · have ht : succession.cursor [] = (.ok ⟨.descend succession.visit succession.book
        (.slice #[1] 0), false, 1⟩, [0]) := rfl
    exact ((numbers_in_range (List Nat)).2.2.2.2 succession _ _ _ _ ht .same).2.1 1 1 _ [0] [1, 0]
      rfl

end PullStream
