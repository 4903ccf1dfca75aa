import PullStream.Proofs.Cursor.Surrounding
import PullStream.Text

/-!
# Joined text

What is written when texts are joined, and the runs that write it. The text of an element may itself
be the answer of a run, which opens and pulls streams as it needs: it is written when that run has
come back, and only then is the next element pulled (`Cursor.Writes`).
-/

set_option autoImplicit false

namespace PullStream

variable {W α ρ : Type}

section Text

variable {sep : String}

/-- What has been written when texts were joined: nothing at all as long as there were none. -/
def joined (sep : String) (ts : List String) : Option String :=
  if ts = [] then none else some (sep.intercalate ts)

theorem getD_joined (ts : List String) : (joined sep ts).getD "" = sep.intercalate ts := by
  cases ts <;> rfl

/-- One text more, behind a separator unless it is the first. -/
def behind (sep : String) (out : Option String) (t : String) : Option String :=
  some (match out with
    | none => t
    | some before => before ++ sep ++ t)

theorem joined_snoc (ts : List String) (t : String) :
    joined sep (ts ++ [t]) = behind sep (joined sep ts) t := by
  unfold joined behind
  by_cases h : ts = []
  · subst h
    simp
  · simp [h, String.intercalate_append_of_ne_nil]

theorem foldl_behind (before ts : List String) :
    ts.foldl (behind sep) (joined sep before) = joined sep (before ++ ts) := by
  induction ts generalizing before with
  | nil => rw [List.append_nil, List.foldl_nil]
  | cons t ts ih =>
    rw [List.foldl_cons, ← joined_snoc, ih, List.append_assoc, List.singleton_append]

/-- A text that was itself joined, with the separator around it, may be taken apart. -/
theorem intercalate_joined {ys : List String} (h : ys ≠ []) (xs zs : List String) :
    sep.intercalate (xs ++ sep.intercalate ys :: zs) = sep.intercalate (xs ++ (ys ++ zs)) := by
  have hy : sep.intercalate (sep.intercalate ys :: zs) = sep.intercalate (ys ++ zs) := by
    by_cases hz : zs = []
    · simp [hz]
    · rw [String.intercalate_cons_of_ne_nil hz, String.intercalate_append_of_ne_nil h hz]
  by_cases hx : xs = []
  · simpa [hx] using hy
  · rw [String.intercalate_append_of_ne_nil hx (by simp), hy,
      String.intercalate_append_of_ne_nil hx (by simp [h])]

end Text

namespace Cursor

variable {c d : Cursor W α} {w v : W}

/-- To consume the elements is first of all to make the silent moves of the first step. -/
theorem consume_eq_of_step {x : Except Panic (Step α)} (hs : Settles (c.step · w) (x, d, v)) :
    ∃ (e : Cursor W α) (u : W) (spent : Nat), e.tick u = (.ofStep x, d, v) ∧
      ∀ {β ρ : Type} (visit : β → α → Run W (Verdict β ρ)) (finish : β → ρ) (b : β) (fuel : Nat),
        c.consume visit finish (fuel + (spent + 1)) b w =
          e.consume visit finish (fuel + 1) b u := by
  obtain ⟨fuel, h⟩ := hs.comes
  clear hs
  induction fuel generalizing c w with
  | zero => cases h
  | succ fuel ih =>
    rw [step] at h
    rcases ht : c.tick w with ⟨_ | a | _ | p, e, u⟩ <;> rw [ht] at h
    · obtain ⟨e', u', spent, he, hc⟩ := ih h
      refine ⟨e', u', spent + 1, he, fun visit finish b fuel => ?_⟩
      rw [← Nat.add_assoc, consume, ht]
      exact hc visit finish b fuel
    all_goals
      cases h
      exact ⟨c, w, 0, ht, fun _ _ _ _ => rfl⟩

/-- What writes the elements behind one another. -/
def joining (sep : String) (write : α → Run W String) (out : Option String) (a : α) :
    Run W (Verdict (Option String) String) :=
  (write a).andThen fun t => pure (.more (behind sep out t))

/-- The texts of the elements, each of which comes back before the next element is pulled. -/
inductive Writes (write : Nat → α → Run W String) :
    Cursor W α → W → Except Panic (List String) → W → Prop
  | ended {c d : Cursor W α} {w v : W} (hs : Settles (c.step · w) (.ok .done, d, v)) :
      Writes write c w (.ok []) v
  | panicked {p : Panic} {c d : Cursor W α} {w v : W} (hs : Settles (c.step · w) (.error p, d, v)) :
      Writes write c w (.error p) v
  | refused {a : α} {p : Panic} {c d : Cursor W α} {w v u : W}
      (hs : Settles (c.step · w) (.ok (.yield a), d, v))
      (ht : Settles (write · a v) (.error p, u)) :
      Writes write c w (.error p) u
  | onward {a : α} {x : String} {c d : Cursor W α} {w v u t : W} {r : Except Panic (List String)}
      (hs : Settles (c.step · w) (.ok (.yield a), d, v)) (ht : Settles (write · a v) (.ok x, u))
      (h : Writes write d u r t) : Writes write c w (r.map (x :: ·)) t

section Writes

variable {write : Nat → α → Run W String} {r : Except Panic (List String)} {t : W}

/-- The fuel for a text and the one for the pulls are independent: a text may take streams of its own
to write. -/
theorem Writes.consume (h : c.Writes write w r t) (sep : String) (before : List String) :
    ∃ least, ∀ fuel, least ≤ fuel → ∀ pulls, least ≤ pulls → ∃ e,
      c.consume (joining sep (write fuel)) (·.getD "") pulls (joined sep before) w =
        some (r.map fun ts => sep.intercalate (before ++ ts), e, t) := by
  induction h generalizing before with
  | @ended c d w v hs =>
    obtain ⟨e, u, spent, he, hc⟩ := consume_eq_of_step hs
    refine ⟨spent + 1, fun fuel _ pulls hp => ⟨d, ?_⟩⟩
    obtain ⟨k, rfl⟩ := Nat.exists_eq_add_of_le' hp
    rw [hc, Cursor.consume, he]
    simp [Move.ofStep, getD_joined, Except.map]
  | @panicked p c d w v hs =>
    obtain ⟨e, u, spent, he, hc⟩ := consume_eq_of_step hs
    refine ⟨spent + 1, fun fuel _ pulls hp => ⟨d, ?_⟩⟩
    obtain ⟨k, rfl⟩ := Nat.exists_eq_add_of_le' hp
    rw [hc, Cursor.consume, he]
    rfl
  | @refused a p c d w v u hs ht =>
    obtain ⟨e, u', spent, he, hc⟩ := consume_eq_of_step hs
    obtain ⟨least, hl⟩ := ht
    refine ⟨max least (spent + 1), fun fuel hf pulls hp => ⟨d, ?_⟩⟩
    obtain ⟨k, rfl⟩ := Nat.exists_eq_add_of_le' (show spent + 1 ≤ pulls by omega)
    rw [hc, Cursor.consume, he]
    simp only [Move.ofStep, joining, Run.andThen, hl fuel (by omega)]
    rfl
  | @onward a x c d w v u t r hs ht _ ih =>
    obtain ⟨e, u', spent, he, hc⟩ := consume_eq_of_step hs
    obtain ⟨least, hl⟩ := ht
    obtain ⟨more, hm⟩ := ih (before ++ [x])
    refine ⟨max least (more + spent + 1), fun fuel hf pulls hp => ?_⟩
    obtain ⟨k, rfl⟩ := Nat.exists_eq_add_of_le' (show spent + 1 ≤ pulls by omega)
    obtain ⟨e', he'⟩ := hm fuel (by omega) k (by omega)
    refine ⟨e', ?_⟩
    rw [hc, Cursor.consume, he]
    simp only [Move.ofStep, joining, Run.andThen, hl fuel (by omega), Run.pure_apply, ← joined_snoc]
    rw [he']
    cases r <;> simp [Except.map]

/-- A cursor whose steps come back as those of another one writes what that writes. -/
theorem Writes.congr (h : d.Writes write v r t)
    (hs : ∀ x, Settles (d.step · v) x → Settles (c.step · w) x) : c.Writes write w r t := by
  cases h with
  | ended hd => exact .ended (hs _ hd)
  | panicked hd => exact .panicked (hs _ hd)
  | refused hd ht => exact .refused (hs _ hd) ht
  | onward hd ht h => exact .onward (hs _ hd) ht h

end Writes

end Cursor

namespace Stream

/-- The stream is opened and its cursor used, and what comes of it comes back. -/
inductive Session (use : Cursor W α → W → Except Panic ρ → W → Prop) (s : Stream W α) (w : W) :
    Except Panic ρ → W → Prop
  | opened {c : Cursor W α} {v t : W} {r : Except Panic ρ} (hc : s.cursor w = (.ok c, v))
      (h : use c v r t) : Session use s w r t
  | lost {p : Panic} {v : W} (hc : s.cursor w = (.error p, v)) : Session use s w (.error p) v

/-- The texts of the elements, in one session. -/
def Writes (write : Nat → α → Run W String) :
    Stream W α → W → Except Panic (List String) → W → Prop :=
  Session (Cursor.Writes write)

theorem Writes.join {s : Stream W α} {write : Nat → α → Run W String} {w t : W}
    {r : Except Panic (List String)} (h : s.Writes write w r t) (sep : String) :
    Settles (fun fuel => s.join fuel (write fuel) sep w) (r.map sep.intercalate, t) := by
  cases h with
  | @opened c v _ _ hc h =>
    obtain ⟨least, hl⟩ := h.consume sep []
    refine ⟨least, fun fuel hf => ?_⟩
    obtain ⟨e, he⟩ := hl fuel hf fuel hf
    show s.session (Cursor.consume (Cursor.joining sep (write fuel)) (·.getD "") fuel none) w = _
    unfold session
    rw [hc]
    show Option.map _ (c.consume (Cursor.joining sep (write fuel)) (·.getD "") fuel
      (joined sep []) v) = _
    rw [he]
    rfl
  | lost hc =>
    refine settles_of_first fun fuel => ?_
    simp only [Stream.join, Stream.consume, session, hc]
    rfl

end Stream

end PullStream
