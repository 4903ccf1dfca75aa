import PullStream.Proofs.Cursor.Lockstep
import PullStream.Proofs.Tree.Survey

/-!
# The root in front

A traversal that begins with the root keeps the exhausted stream of the root at the bottom of its
stack, and one open stream more does not count as depth. From its second step on it cannot be told
apart from a traversal that leaves the root out. The two are not in lockstep: where the last open
stream of the one ends, the other has still to find that the root has no siblings. So the relation
between them allows the first to come back one move later, and this is carried from moves to calls
and from calls to sessions.
-/

set_option autoImplicit false

namespace PullStream

universe u v

/-- What the one computation comes to the other comes to as well, up to `R`, and the first needs at
most one unit of fuel more. -/
structure OneBehind {ρ : Type u} {σ : Type v} (R : ρ → σ → Prop) (f : Nat → Option ρ)
    (g : Nat → Option σ) : Prop where
  forth : ∀ {fuel x}, f fuel = some x → ∃ y, g fuel = some y ∧ R x y
  back : ∀ {fuel y}, g fuel = some y → ∃ x, f (fuel + 1) = some x ∧ R x y

namespace OneBehind

variable {ρ : Type u} {σ : Type v} {R : ρ → σ → Prop}

theorem of_rel {x : Option ρ} {y : Option σ} (h : Option.Rel R x y) :
    OneBehind R (fun _ => x) fun _ => y where
  forth hx := by
    cases h with
    | none => cases hx
    | some h => cases hx; exact ⟨_, rfl, h⟩
  back hy := by
    cases h with
    | none => cases hy
    | some h => cases hy; exact ⟨_, rfl, h⟩

theorem map {ρ' : Type u} {σ' : Type v} {S : ρ' → σ' → Prop} {f : Nat → Option ρ}
    {g : Nat → Option σ} (h : OneBehind R f g) {φ : ρ → ρ'} {ψ : σ → σ'}
    (hm : ∀ {x y}, R x y → S (φ x) (ψ y)) :
    OneBehind S (fun fuel => (f fuel).map φ) fun fuel => (g fuel).map ψ where
  forth hx := by
    obtain ⟨x, hf, rfl⟩ := Option.map_eq_some_iff.mp hx
    obtain ⟨y, hg, hr⟩ := h.forth hf
    exact ⟨ψ y, by rw [hg, Option.map_some], hm hr⟩
  back hy := by
    obtain ⟨y, hg, rfl⟩ := Option.map_eq_some_iff.mp hy
    obtain ⟨x, hf, hr⟩ := h.back hg
    exact ⟨φ x, by rw [hf, Option.map_some], hm hr⟩

theorem settles_iff {f g : Nat → Option ρ} (h : OneBehind Eq f g) (r : ρ) :
    Settles f r ↔ Settles g r := by
  constructor
  · rintro ⟨least, hl⟩
    refine ⟨least, fun fuel hf => ?_⟩
    obtain ⟨_, hg, rfl⟩ := h.forth (hl fuel hf)
    exact hg
  · rintro ⟨least, hl⟩
    refine ⟨least + 1, fun fuel hf => ?_⟩
    obtain ⟨n, rfl⟩ := Nat.exists_eq_add_of_le' (Nat.le_of_add_left_le hf)
    obtain ⟨_, hx, rfl⟩ := h.back (hl n (by omega))
    exact hx

end OneBehind

/-- One round of two loops that spend fuel: both go on, both come back, or the second comes back and
the first does so in its next round. -/
inductive Round {S : Type u} {T : Type u} {ρ : Type u} {σ : Type u} (Q : S → T → Prop)
    (R : ρ → σ → Prop) (f : Nat → S → Option ρ) (g : Nat → T → Option σ) (s : S) (t : T) : Prop
  | onward (s' : S) (t' : T) (hs : ∀ fuel, f (fuel + 1) s = f fuel s')
      (ht : ∀ fuel, g (fuel + 1) t = g fuel t') (hq : Q s' t') : Round Q R f g s t
  | answer (x : ρ) (y : σ) (hx : ∀ fuel, f (fuel + 1) s = some x)
      (hy : ∀ fuel, g (fuel + 1) t = some y) (hr : R x y) : Round Q R f g s t
  | behind (s' : S) {x : ρ} {y : σ} (hs : ∀ fuel, f (fuel + 1) s = f fuel s')
      (hx : ∀ fuel, f (fuel + 1) s' = some x) (hy : ∀ fuel, g (fuel + 1) t = some y)
      (hr : R x y) : Round Q R f g s t

theorem OneBehind.of_rounds {S T ρ σ : Type u} {Q : S → T → Prop} {R : ρ → σ → Prop}
    {f : Nat → S → Option ρ} {g : Nat → T → Option σ} (hf : ∀ s, f 0 s = none)
    (hg : ∀ t, g 0 t = none) (h : ∀ {s t}, Q s t → Round Q R f g s t) {s : S} {t : T}
    (hq : Q s t) : OneBehind R (f · s) (g · t) where
  forth {fuel x} hx := by
    induction fuel generalizing s t with
    | zero =>
      rw [hf] at hx
      cases hx
    | succ fuel ih =>
      cases h hq with
      | onward s' t' hs ht hq =>
        rw [hs] at hx
        rw [ht]
        exact ih hq hx
      | answer x' y' hx' hy hr =>
        cases (hx' fuel).symm.trans hx
        exact ⟨_, hy fuel, hr⟩
      | behind s' hs hx' hy hr =>
        rw [hs] at hx
        cases fuel with
        | zero =>
          rw [hf] at hx
          cases hx
        | succ fuel =>
          cases (hx' fuel).symm.trans hx
          exact ⟨_, hy _, hr⟩
  back {fuel y} hy := by
    induction fuel generalizing s t with
    | zero =>
      rw [hg] at hy
      cases hy
    | succ fuel ih =>
      cases h hq with
      | onward s' t' hs ht hq =>
        rw [ht] at hy
        rw [hs]
        exact ih hq hy
      | answer x' y' hx hy' hr =>
        cases (hy' fuel).symm.trans hy
        exact ⟨_, hx _, hr⟩
      | behind s' hs hx hy' hr =>
        cases (hy' fuel).symm.trans hy
        exact ⟨_, (hs _).trans (hx fuel), hr⟩

variable {W ν ι : Type}

open Cursor Moves

namespace TreeStream

variable (t : TreeStream W ν ι)

/-- A traversal that has nothing open but the exhausted stream of the root. -/
def spent : Cursor W ν := .descend t.visit t.book (.source Stream.listSource false [])

/-- Two traversals have the same streams open, the first on top of the stream of the root. -/
inductive Raised : Cursor W ν → Cursor W ν → Prop
  | ground (top : Cursor W ν) :
      Raised (.dive t.visit t.book 1 top t.spent) (.descend t.visit t.book top)
  | deeper (level : Nat) (top : Cursor W ν) {c d : Cursor W ν} (h : Raised c d) :
      Raised (.dive t.visit t.book (level + 1) top c) (.dive t.visit t.book level top d)

/-- The states of two traversals that have made the same calls since the root was produced. -/
inductive Abreast : Cursor W ν → Cursor W ν → Prop
  | raised {c d : Cursor W ν} (h : t.Raised c d) : Abreast c d
  | spent : Abreast t.spent .empty
  | ended : Abreast .empty .empty

/-- The second traversal has come to its end, and the first is about to. -/
def Behind (x y : Move ν × Cursor W ν × W) : Prop :=
  ∃ v, x = (.silent, t.spent, v) ∧ y = (.done, .empty, v)

variable {t} {c d : Cursor W ν}

/-- The two traversals do the same with a node of the streams opened last. -/
theorem alongside_descent {R : Cursor W ν → Cursor W ν → Prop} (hr : R c d) {level : Nat}
    (hd : ∀ top, R (.dive t.visit t.book (level + 2) top c) (.dive t.visit t.book (level + 1) top d))
    (n : ν) (w : W) :
    Alongside R (descent t.visit t.book (level + 1) n c w) (descent t.visit t.book level n d w) := by
  rw [descent_eq_enter, descent_eq_enter]
  rcases t.enter n w with ⟨p | top, v⟩
  · exact ⟨rfl, hr, rfl⟩
  · exact ⟨rfl, hd top, rfl⟩

theorem Raised.tick (h : t.Raised c d) (w : W) :
    Alongside t.Raised (c.tick w) (d.tick w) ∨ t.Behind (c.tick w) (d.tick w) := by
  cases h with
  | ground top =>
    rw [tick_dive, tick_descend]
    rcases top.tick w with ⟨_ | n | _ | p, top, v⟩
    · exact .inl ⟨rfl, .ground top, rfl⟩
    · exact .inl (alongside_descent (.ground top) (fun _ => .deeper 1 _ (.ground top)) n v)
    · exact .inr ⟨v, rfl, rfl⟩
    · exact .inl ⟨rfl, .ground top, rfl⟩
  | deeper level top h =>
    rw [tick_dive, tick_dive]
    rcases top.tick w with ⟨_ | n | _ | p, top, v⟩
    · exact .inl ⟨rfl, .deeper level top h, rfl⟩
    · exact .inl (alongside_descent (.deeper level top h)
        (fun _ => .deeper (level + 1) _ (.deeper level top h)) n v)
    · exact .inl ⟨rfl, h, rfl⟩
    · exact .inl ⟨rfl, .deeper level top h, rfl⟩

theorem Abreast.tick (h : t.Abreast c d) (w : W) :
    Alongside t.Abreast (c.tick w) (d.tick w) ∨ t.Behind (c.tick w) (d.tick w) := by
  cases h with
  | raised h => exact (h.tick w).imp (fun ⟨hm, hr, hw⟩ => ⟨hm, .raised hr, hw⟩) id
  | spent => exact .inl ⟨rfl, .ended, rfl⟩
  | ended => exact .inl ⟨rfl, .ended, rfl⟩

theorem Raised.height (h : t.Raised c d) : c.height = d.height + 1 := by
  induction h with
  | ground top => rfl
  | deeper level top _ ih => simp only [Cursor.height, ih]

/-- Once the streams of both are closed, depth is cut off at zero in both. -/
theorem Abreast.depth (h : t.Abreast c d) : c.height - 2 = d.height - 1 := by
  cases h with
  | raised h =>
    have hh := h.height
    omega
  | spent => rfl
  | ended => rfl

theorem Abreast.ascend (h : t.Abreast c d) : t.Abreast c.ascend d.ascend := by
  cases h with
  | raised h =>
    cases h with
    | ground top => exact .spent
    | deeper level top h => exact .raised h
  | spent => exact .ended
  | ended => exact .ended

theorem Abreast.not_jumps (h : t.Abreast c d) : ¬ c.Jumps ∧ ¬ d.Jumps := by
  rcases h with ⟨_ | _⟩ | _ | _ <;> exact ⟨not_false, not_false⟩

theorem Abreast.step (h : t.Abreast c d) (w : W) :
    OneBehind (Alongside t.Abreast) (c.step · w) (d.step · w) := by
  refine OneBehind.of_rounds (f := fun fuel x => x.1.step fuel x.2)
    (g := fun fuel x => x.1.step fuel x.2)
    (Q := fun x y : Cursor W ν × W => t.Abreast x.1 y.1 ∧ x.2 = y.2) (s := (c, w)) (t := (d, w))
    (fun _ => rfl) (fun _ => rfl) ?_ ⟨h, rfl⟩
  rintro ⟨c, w⟩ ⟨d, _⟩ ⟨h, rfl⟩
  rcases h.tick w with ⟨hm, hr, hw⟩ | ⟨v, hc, hd⟩
  · rcases hc : c.tick w with ⟨m, c', v⟩
    rcases hd : d.tick w with ⟨m', d', v'⟩
    rw [hc, hd] at hm hr hw
    obtain rfl : m = m' := hm
    obtain rfl : v = v' := hw
    cases m with
    | silent =>
      exact .onward (c', v) (d', v) (fun _ => by simp only [Cursor.step, hc])
        (fun _ => by simp only [Cursor.step, hd]) ⟨hr, rfl⟩
    | yield a =>
      exact .answer (.ok (.yield a), c', v) (.ok (.yield a), d', v)
        (fun _ => by simp only [Cursor.step, hc]) (fun _ => by simp only [Cursor.step, hd])
        ⟨rfl, hr, rfl⟩
    | done =>
      exact .answer (.ok .done, c', v) (.ok .done, d', v)
        (fun _ => by simp only [Cursor.step, hc]) (fun _ => by simp only [Cursor.step, hd])
        ⟨rfl, hr, rfl⟩
    | panic p =>
      exact .answer (.error p, c', v) (.error p, d', v)
        (fun _ => by simp only [Cursor.step, hc]) (fun _ => by simp only [Cursor.step, hd])
        ⟨rfl, hr, rfl⟩
  · exact .behind (t.spent, v) (fun _ => by simp only [Cursor.step, hc])
      (fun _ => rfl) (fun _ => by simp only [Cursor.step, hd]) ⟨rfl, .ended, rfl⟩

/-- To leave nodes out is behind in the same way, since it steps over them. -/
theorem Abreast.skip (h : t.Abreast c d) (n : Nat) (w : W) :
    Alongside t.Abreast (c.skip n w) (d.skip n w) ∨
      ∃ v, c.skip n w = (.ongoing n, t.spent, v) ∧ n ≠ 0 ∧
        d.skip n w = (.finished false, .empty, v) := by
  rcases h.tick w with ha | ⟨v, hc, hd⟩
  · exact .inl (Alongside.skip h.not_jumps.1 h.not_jumps.2 h ha n)
  · rw [skip_eq_skipBySteps h.not_jumps.1, skip_eq_skipBySteps h.not_jumps.2]
    cases n with
    | zero => exact .inl ⟨rfl, h, rfl⟩
    | succ n =>
      refine .inr ⟨v, ?_, Nat.succ_ne_zero n, ?_⟩
      · simp only [skipBySteps, hc]
      · simp only [skipBySteps, hd]

theorem Abreast.advanceBy (h : t.Abreast c d) (n : Nat) (w : W) :
    OneBehind (Alongside t.Abreast) (c.advanceBy · n w) (d.advanceBy · n w) := by
  refine OneBehind.of_rounds (f := fun fuel x => x.1.advanceBy fuel x.2.1 x.2.2)
    (g := fun fuel x => x.1.advanceBy fuel x.2.1 x.2.2)
    (Q := fun x y : Cursor W ν × Nat × W => t.Abreast x.1 y.1 ∧ x.2 = y.2) (s := (c, n, w))
    (t := (d, n, w)) (fun _ => rfl) (fun _ => rfl) ?_ ⟨h, rfl⟩
  rintro ⟨c, n, w⟩ ⟨d, _⟩ ⟨h, rfl⟩
  rcases h.skip n w with ⟨hm, hr, hw⟩ | ⟨v, hc, hn, hd⟩
  · rcases hc : c.skip n w with ⟨m, c', v⟩
    rcases hd : d.skip n w with ⟨m', d', v'⟩
    rw [hc, hd] at hm hr hw
    obtain rfl : m = m' := hm
    obtain rfl : v = v' := hw
    cases m with
    | ongoing k =>
      exact .onward (c', k, v) (d', k, v)
        (fun _ => by simp only [Cursor.advanceBy, hc])
        (fun _ => by simp only [Cursor.advanceBy, hd]) ⟨hr, rfl⟩
    | finished complete =>
      exact .answer (.ok complete, c', v) (.ok complete, d', v)
        (fun _ => by simp only [Cursor.advanceBy, hc]) (fun _ => by simp only [Cursor.advanceBy, hd])
        ⟨rfl, hr, rfl⟩
    | panic p =>
      exact .answer (.error p, c', v) (.error p, d', v)
        (fun _ => by simp only [Cursor.advanceBy, hc]) (fun _ => by simp only [Cursor.advanceBy, hd])
        ⟨rfl, hr, rfl⟩
  · obtain ⟨k, rfl⟩ := Nat.exists_eq_succ_of_ne_zero hn
    exact .behind (t.spent, k + 1, v) (fun _ => by simp only [Cursor.advanceBy, hc])
      (fun _ => rfl) (fun _ => by simp only [Cursor.advanceBy, hd]) ⟨rfl, .ended, rfl⟩

end TreeStream

/-- What the holder of a traversal does. Between two calls the world may change in any way. -/
inductive TreeCall (W : Type) where
  | step
  | advanceBy (n : Nat)
  | prune
  | depth
  | meanwhile (change : W → W)

inductive TreeReply (ν : Type) where
  | stepped (s : Step ν)
  | advanced (complete : Bool)
  | pruned
  | depth (d : Nat)
  | waited

namespace TreeCursor

def call (fuel : Nat) (t : TreeCursor W ν) (w : W) :
    TreeCall W → Option (Except Panic (TreeReply ν) × TreeCursor W ν × W)
  | .step => (t.step fuel w).map fun (r, t, w) => (r.map .stepped, t, w)
  | .advanceBy n => (t.advanceBy fuel n w).map fun (r, t, w) => (r.map .advanced, t, w)
  | .prune => some (.ok .pruned, t.prune, w)
  | .depth => some (.ok (.depth t.depth), t, w)
  | .meanwhile change => some (.ok .waited, t, change w)

/-- The replies to calls made one after the other, each with the world that it leaves. A panic is
caught, and the calls go on. -/
def replies (fuel : Nat) (t : TreeCursor W ν) (w : W) :
    List (TreeCall W) → Option (List (Except Panic (TreeReply ν) × W))
  | [] => some []
  | a :: calls =>
    match t.call fuel w a with
    | none => none
    | some (r, t, w) => (t.replies fuel w calls).map ((r, w) :: ·)

/-- The first traversal began with the root and the second left it out. -/
structure Follows (t : TreeStream W ν ι) (x y : TreeCursor W ν) : Prop where
  path : t.Abreast x.path y.path
  pruning : x.pruning = y.pruning
  rooted : x.base = 2
  unrooted : y.base = 1

/-- The same came of two calls, in the same world. -/
def Alike {μ : Type} (t : TreeStream W ν ι) (x y : μ × TreeCursor W ν × W) : Prop :=
  x.1 = y.1 ∧ Follows t x.2.1 y.2.1 ∧ x.2.2 = y.2.2

variable {t : TreeStream W ν ι} {x y : TreeCursor W ν}

theorem Follows.prune (h : Follows t x y) : Follows t x.prune y.prune :=
  ⟨h.path, rfl, h.rooted, h.unrooted⟩

theorem Follows.depth (h : Follows t x y) : x.depth = y.depth := by
  unfold TreeCursor.depth
  rw [h.rooted, h.unrooted]
  exact h.path.depth

theorem Follows.settle (h : Follows t x y) : Follows t x.settle y.settle := by
  unfold TreeCursor.settle
  rw [h.pruning]
  split
  · exact ⟨h.path.ascend, rfl, h.rooted, h.unrooted⟩
  · exact h

theorem Follows.along {ρ : Type}
    (use : Nat → Cursor W ν → W → Option (Except Panic ρ × Cursor W ν × W))
    (hu : ∀ {c d}, t.Abreast c d → ∀ w,
      OneBehind (Alongside t.Abreast) (use · c w) (use · d w))
    (h : Follows t x y) (w : W) :
    OneBehind (Alike t) (fun fuel => x.along (use fuel) w) fun fuel => y.along (use fuel) w :=
  (hu h.settle.path w).map fun ⟨hm, hr, hw⟩ =>
    ⟨hm, ⟨hr, h.settle.pruning, h.settle.rooted, h.settle.unrooted⟩, hw⟩

theorem Follows.call (h : Follows t x y) (w : W) (a : TreeCall W) :
    OneBehind (Alike t) (x.call · w a) (y.call · w a) := by
  cases a with
  | step =>
    exact (Follows.along Cursor.step TreeStream.Abreast.step h w).map fun ⟨hm, hr⟩ =>
      ⟨congrArg (Except.map TreeReply.stepped) hm, hr⟩
  | advanceBy n =>
    by_cases hn : n = 0
    -- Nothing is left out and a pending prune stays pending, in both.
    · simp only [TreeCursor.call, TreeCursor.advanceBy, hn, if_true, Option.map_some]
      exact OneBehind.of_rel (.some ⟨rfl, h, rfl⟩)
    · simp only [TreeCursor.call, TreeCursor.advanceBy, hn, if_false]
      exact (Follows.along (Cursor.advanceBy · n) (TreeStream.Abreast.advanceBy · n) h w).map
        fun ⟨hm, hr⟩ => ⟨congrArg (Except.map TreeReply.advanced) hm, hr⟩
  | prune => exact OneBehind.of_rel (.some ⟨rfl, h.prune, rfl⟩)
  | depth => exact OneBehind.of_rel (.some ⟨by rw [h.depth], h, rfl⟩)
  | meanwhile change => exact OneBehind.of_rel (.some ⟨rfl, h, rfl⟩)

/-- The same calls get the same replies. -/
theorem Follows.replies (h : Follows t x y) (w : W) (calls : List (TreeCall W)) :
    OneBehind Eq (x.replies · w calls) (y.replies · w calls) := by
  induction calls generalizing x y w with
  | nil => exact OneBehind.of_rel (.some rfl)
  | cons a calls ih =>
    have ha := h.call w a
    constructor
    · intro fuel rs hx
      simp only [TreeCursor.replies] at hx ⊢
      rcases hc : x.call fuel w a with _ | ⟨r, x', v⟩ <;> rw [hc] at hx
      · cases hx
      · obtain ⟨⟨_, y', _⟩, hd, rfl, hf, rfl⟩ := ha.forth hc
        obtain ⟨rs, hrx, rfl⟩ := Option.map_eq_some_iff.mp hx
        obtain ⟨_, hry, rfl⟩ := (ih hf _).forth hrx
        exact ⟨_, by simp only [hd, hry, Option.map_some], rfl⟩
    · intro fuel rs hy
      simp only [TreeCursor.replies] at hy ⊢
      rcases hd : y.call fuel w a with _ | ⟨r, y', v⟩ <;> rw [hd] at hy
      · cases hy
      · obtain ⟨⟨_, x', _⟩, hc, rfl, hf, rfl⟩ := ha.back hd
        obtain ⟨rs, hry, rfl⟩ := Option.map_eq_some_iff.mp hy
        obtain ⟨_, hrx, rfl⟩ := (ih hf _).back hry
        exact ⟨_, by simp only [hc, hrx, Option.map_some], rfl⟩

end TreeCursor

namespace TreeStream

variable (t : TreeStream W ν ι)

/-- The first step of a traversal that begins with the root asks for the children of the root. -/
theorem first_step (w : W) :
    Settles (TreeCursor.step · ⟨.descend t.visit t.book (.source Stream.listSource false [t.root]),
        false, 2⟩ w)
      (match t.enter t.root w with
        | (.ok top, v) =>
          (.ok (.yield t.root), ⟨.dive t.visit t.book 1 top t.spent, false, 2⟩, v)
        | (.error p, v) => (.error p, ⟨t.spent, false, 2⟩, v)) := by
  have ht : (descend t.visit t.book (.source Stream.listSource false [t.root])).tick w =
      descent t.visit t.book 0 t.root t.spent w := rfl
  rw [descent_eq_enter] at ht
  rcases he : t.enter t.root w with ⟨p | top, v⟩ <;> rw [he] at ht
  · exact TreeCursor.settles_step (settles_step_panic ht)
  · exact TreeCursor.settles_step (settles_step_yield ht)

/-- A traversal that begins with the root produces it by its first step and is from then on, call
for call, a traversal that leaves it out. The first step panics where that one cannot be opened. -/
theorem root_comes_first (root : ν) (children : ν → Act W ι) (book : ι → Stream W ν) (w : W) :
    ∃ x, (TreeStream.mk root children book true).cursor w = (.ok x, w) ∧
      ((∃ p x' v, Settles (x.step · w) (.error p, x', v) ∧
          (TreeStream.mk root children book false).cursor w = (.error p, v)) ∨
        ∃ x' y v, Settles (x.step · w) (.ok (.yield root), x', v) ∧
          (TreeStream.mk root children book false).cursor w = (.ok y, v) ∧
          ∀ calls rs, Settles (x'.replies · v calls) rs ↔ Settles (y.replies · v calls) rs) := by
  let t : TreeStream W ν ι := ⟨root, children, book, false⟩
  have hf := t.first_step w
  have ht : t.top.cursor w = t.enter root w := t.top_cursor w
  refine ⟨_, rfl, ?_⟩
  rcases he : t.enter root w with ⟨p | top, v⟩ <;> rw [he] at hf ht
  · exact .inl ⟨p, _, v, hf, cursor_of_top_panic ht⟩
  · have hl : TreeCursor.Follows t ⟨.dive t.visit t.book 1 top t.spent, false, 2⟩
        ⟨.descend t.visit t.book top, false, 1⟩ := ⟨.raised (.ground top), rfl, rfl, rfl⟩
    exact .inr ⟨_, _, v, hf, cursor_of_top ht, fun calls rs => (hl.replies v calls).settles_iff rs⟩

end TreeStream

end PullStream
