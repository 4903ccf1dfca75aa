import PullStream.Cursor.Drive

/-!
# Single moves

One equation per kind of cursor for `Cursor.tick`, in terms of the moves of the cursors inside it,
and one equation for `Cursor.skip` of every cursor that leaves elements out by stepping over them.
Proofs about moves use these and leave `Cursor.moves` folded.
-/

set_option autoImplicit false

namespace PullStream

variable {W α β ι κ : Type}

namespace Cursor

open Moves

@[simp] theorem tick_empty (w : W) : (empty : Cursor W α).tick w = (.done, .empty, w) := rfl

theorem tick_slice (xs : Array α) (i : Nat) (w : W) :
    (slice xs i).tick w = match xs[i]? with
      | some a => (.yield a, .slice xs (i + 1), w)
      | none => (.done, .slice xs i, w) := rfl

theorem tick_source {σ : Type} (src : Source W σ α) (ended : Bool) (s : σ) (w : W) :
    (source src ended s).tick w = pull src ended s w := rfl

theorem tick_fused (ended : Bool) (c : Cursor W α) (w : W) :
    (fused ended c).tick w =
      if ended then (.done, .fused true c, w)
      else match c.tick w with
        | (.silent, c, w) => (.silent, .fused false c, w)
        | (.yield a, c, w) => (.yield a, .fused false c, w)
        | (.done, c, w) => (.done, .fused true c, w)
        | (.panic p, c, w) => (.panic p, .fused false c, w) := rfl

theorem tick_map (f : β → Act W α) (c : Cursor W β) (w : W) :
    (map f c).tick w = relay (map f) (fun b c w => match f b w with
      | (.ok a, w) => (.yield a, map f c, w)
      | (.error p, w) => (.panic p, map f c, w)) (c.tick w) := rfl

theorem tick_filter (p : α → Act W Bool) (c : Cursor W α) (w : W) :
    (filter p c).tick w = relay (filter p) (fun a c w => match p a w with
      | (.ok true, w) => (.yield a, filter p c, w)
      | (.ok false, w) => (.silent, filter p c, w)
      | (.error q, w) => (.panic q, filter p c, w)) (c.tick w) := rfl

theorem tick_filterMap (f : β → Act W (Option α)) (c : Cursor W β) (w : W) :
    (filterMap f c).tick w = relay (filterMap f) (fun b c w => match f b w with
      | (.ok (some a), w) => (.yield a, filterMap f c, w)
      | (.ok none, w) => (.silent, filterMap f c, w)
      | (.error p, w) => (.panic p, filterMap f c, w)) (c.tick w) := rfl

theorem tick_first (c : Cursor W α) (later : Stream W α) (w : W) :
    (first c later).tick w = match c.tick w with
      | (.silent, c, w) => (.silent, .first c later, w)
      | (.yield a, c, w) => (.yield a, .first c later, w)
      | (.done, _, w) => opening later .second .empty .silent w
      | (.panic p, c, w) => (.panic p, .first c later, w) := rfl

theorem tick_second (c : Cursor W α) (w : W) :
    (second c).tick w = relay second (fun a c w => (.yield a, second c, w)) (c.tick w) := rfl

theorem tick_tail_zero (c : Cursor W α) (w : W) :
    (tail 0 c).tick w = relay (tail 0) (fun a c w => (.yield a, tail 0 c, w)) (c.tick w) := rfl

theorem tick_tail_succ (n : Nat) (c : Cursor W α) (w : W) :
    (tail (n + 1) c).tick w = match c.skip (n + 1) w with
      | (.ongoing m, c, w) => (.silent, tail m c, w)
      | (.finished true, c, w) => (.silent, tail 0 c, w)
      | (.finished false, c, w) => (.done, tail 0 c, w)
      | (.panic p, c, w) => (.panic p, tail 0 c, w) := rfl

@[simp] theorem tick_limit_zero (c : Cursor W α) (w : W) :
    (limit 0 c).tick w = (.done, limit 0 c, w) := rfl

theorem tick_limit_succ (n : Nat) (c : Cursor W α) (w : W) :
    (limit (n + 1) c).tick w = match c.tick w with
      | (.silent, c, w) => (.silent, limit (n + 1) c, w)
      | (.yield a, c, w) => (.yield a, limit n c, w)
      | (.done, c, w) => (.done, limit 0 c, w)
      | (.panic p, c, w) => (.panic p, limit n c, w) := rfl

theorem tick_distinct (eq : DecidableEq κ) (key : α → Act W κ) (seen : List κ) (c : Cursor W α)
    (w : W) :
    (distinct eq key seen c).tick w =
      relay (distinct eq key seen) (fun a c w => match key a w with
        | (.ok k, w) =>
          if k ∈ seen then (.silent, distinct eq key seen c, w)
          else (.yield a, distinct eq key (k :: seen) c, w)
        | (.error p, w) => (.panic p, distinct eq key seen c, w)) (c.tick w) := rfl

theorem tick_excludeFresh (eq : DecidableEq κ) (key : α → Act W κ) (other : Stream W α)
    (c : Cursor W α) (w : W) :
    (excludeFresh eq key other c).tick w =
      opening other (fun d => .excludeDrain eq key other d [] c)
        (.excludeFresh eq key other c) .silent w := rfl

theorem tick_excludeDrain (eq : DecidableEq κ) (key : α → Act W κ) (other : Stream W α)
    (d : Cursor W α) (keys : List κ) (c : Cursor W α) (w : W) :
    (excludeDrain eq key other d keys c).tick w = match d.tick w with
      | (.silent, d, w) => (.silent, .excludeDrain eq key other d keys c, w)
      | (.yield a, d, w) =>
        match key a w with
        | (.ok k, w) => (.silent, .excludeDrain eq key other d (k :: keys) c, w)
        | (.error p, w) => (.panic p, .excludeFresh eq key other c, w)
      | (.done, _, w) => (.silent, .excludeReady eq key keys c, w)
      | (.panic p, _, w) => (.panic p, .excludeFresh eq key other c, w) := rfl

theorem tick_excludeReady (eq : DecidableEq κ) (key : α → Act W κ) (keys : List κ)
    (c : Cursor W α) (w : W) :
    (excludeReady eq key keys c).tick w =
      relay (excludeReady eq key keys) (fun a c w => match key a w with
        | (.ok k, w) => (if k ∈ keys then .silent else .yield a, .excludeReady eq key keys c, w)
        | (.error p, w) => (.panic p, .excludeReady eq key keys c, w)) (c.tick w) := rfl

theorem tick_flatten (book : ι → Stream W α) (outer : Cursor W ι) (w : W) :
    (flatten book outer).tick w = relay (flatten book) (fun i outer w =>
      opening (book i) (fun c => .flattenIn book c outer) (.flatten book outer) .silent w)
      (outer.tick w) := rfl

theorem tick_flattenIn (book : ι → Stream W α) (inner : Cursor W α) (outer : Cursor W ι) (w : W) :
    (flattenIn book inner outer).tick w = match inner.tick w with
      | (.silent, inner, w) => (.silent, .flattenIn book inner outer, w)
      | (.yield a, inner, w) => (.yield a, .flattenIn book inner outer, w)
      | (.done, _, w) => (.silent, .flatten book outer, w)
      | (.panic p, inner, w) => (.panic p, .flattenIn book inner outer, w) := rfl

theorem tick_descend (visit : Nat → β → Act W (Visit ι α)) (book : ι → Stream W β)
    (c : Cursor W β) (w : W) :
    (descend visit book c).tick w = match c.tick w with
      | (.silent, c, w) => (.silent, .descend visit book c, w)
      | (.yield b, c, w) => descent visit book 0 b (.descend visit book c) w
      | (.done, _, w) => (.done, .empty, w)
      | (.panic p, c, w) => (.panic p, .descend visit book c, w) := rfl

theorem tick_dive (visit : Nat → β → Act W (Visit ι α)) (book : ι → Stream W β) (level : Nat)
    (top : Cursor W β) (rest : Cursor W α) (w : W) :
    (dive visit book level top rest).tick w = match top.tick w with
      | (.silent, top, w) => (.silent, .dive visit book level top rest, w)
      | (.yield b, top, w) => descent visit book level b (.dive visit book level top rest) w
      | (.done, _, w) => (.silent, rest, w)
      | (.panic p, top, w) => (.panic p, .dive visit book level top rest, w) := rfl

/-- The cursors that have a way of their own to leave elements out. -/
def Jumps : {α : Type} → Cursor W α → Prop
  | _, .slice _ _ => True
  | _, .source _ _ _ => True
  | _, .fused _ _ => True
  | _, _ => False

theorem skip_eq_skipBySteps {c : Cursor W α} (h : ¬ c.Jumps) :
    c.skip = skipBySteps c c.tick := by
  cases c with
  | slice | source | fused => exact absurd trivial h
  | tail n c => cases n <;> rfl
  | limit n c => cases n <;> rfl
  | _ => rfl

theorem skip_slice (xs : Array α) (i n : Nat) (w : W) :
    (slice xs i).skip n w =
      if n ≤ xs.size - i then (.finished true, .slice xs (i + n), w)
      else (.finished false, .slice xs xs.size, w) := rfl

theorem skip_source {σ : Type} (src : Source W σ α) (ended : Bool) (s : σ) :
    (source src ended s).skip = match src.jump with
      | none => skipBySteps (.source src ended s) (pull src ended s)
      | some jump => fun n w =>
        if ended then (.finished (n == 0), .source src true s, w)
        else match jump n s w with
          | (.ok complete, s, w) => (.finished complete, .source src (!complete) s, w)
          | (.error p, s, w) => (.panic p, .source src false s, w) := rfl

theorem skip_fused (ended : Bool) (c : Cursor W α) (n : Nat) (w : W) :
    (fused ended c).skip n w =
      if ended then (.finished (n == 0), .fused true c, w)
      else match c.skip n w with
        | (.ongoing n, c, w) => (.ongoing n, .fused false c, w)
        | (.finished complete, c, w) => (.finished complete, .fused (!complete) c, w)
        | (.panic p, c, w) => (.panic p, .fused false c, w) := rfl

end Cursor

end PullStream
