import PullStream.Proofs.Window

/-!
# Stages merged into one

Mapping, filtering and both at once are stages that decide about one element at a time, by a
callback that answers another element, none, or panics. `Decides` says that this is all there is to
them, so two stages with the same decision go in lockstep around the same cursor. A stage upon a
stage decides by the two callbacks one after the other, and so does the one stage that they are
merged into: what the callbacks share or leave unfinished cannot tell the two apart.
-/

set_option autoImplicit false

namespace PullStream

variable {W α β γ : Type}

/-! ## Decisions -/

namespace Act

/-- Asks `p` whether the element is kept. -/
def kept (p : α → Act W Bool) (a : α) : Act W (Option α) :=
  (p a).andThen fun hit => done (if hit then some a else none)

def always (f : α → Act W β) (a : α) : Act W (Option β) :=
  (f a).andThen fun b => done (some b)

/-- Asks `p` and, if the element is kept, calls `f` on it. -/
def chosen (p : α → Act W Bool) (f : α → Act W β) (a : α) : Act W (Option β) :=
  (p a).andThen fun hit => if hit then always f a else done none

def orNone (g : β → Act W (Option γ)) : Option β → Act W (Option γ)
  | some b => g b
  | none => done none

theorem kept_always (p : α → Act W Bool) (f : α → Act W β) (a : α) :
    (kept p a).andThen (orNone (always f)) = chosen p f a := by
  simp only [kept, andThen_assoc, chosen]
  congr 1
  funext hit
  cases hit <;> rfl

theorem always_done (h : α → Act W (Option β)) (a : α) :
    (always h a).andThen (orNone done) = h a := by
  calc (always h a).andThen (orNone done)
      = (h a).andThen fun b => (done (some b)).andThen (orNone done) := andThen_assoc _ _ _
    _ = (h a).andThen done := rfl
    _ = h a := andThen_done _

theorem always_always (f : α → Act W β) (g : β → Act W γ) (a : α) :
    (always f a).andThen (orNone (always g)) = always (fun a => (f a).andThen g) a := by
  simp only [always, andThen_assoc]
  rfl

end Act

/-! ## Stages that decide -/

namespace Cursor

open Act Moves

/-- A stage that steps over what it leaves out, hands on every move but an element, and shows what
the callback answers on that. -/
structure Decides (around : Cursor W α → Cursor W β) (h : α → Act W (Option β)) : Prop where
  steps : ∀ c, ¬ (around c).Jumps
  tick : ∀ c w, (around c).tick w =
    relay around (fun a c w => (shown (h a w).1, around c, (h a w).2)) (c.tick w)

theorem Decides.map (f : α → Act W β) : Decides (.map f) (always f) where
  steps _ := id
  tick c w := by
    rw [tick_map]
    congr 1
    funext a c w
    simp only [always, andThen, done]
    rcases f a w with ⟨p | b, v⟩ <;> rfl

theorem Decides.filter (p : α → Act W Bool) : Decides (.filter p) (kept p) where
  steps _ := id
  tick c w := by
    rw [tick_filter]
    congr 1
    funext a c w
    simp only [kept, andThen, done]
    rcases p a w with ⟨q | (_ | _), v⟩ <;> rfl

theorem Decides.filterMap (h : α → Act W (Option β)) : Decides (.filterMap h) h where
  steps _ := id
  tick c w := by
    rw [tick_filterMap]
    congr 1
    funext a c w
    rcases h a w with ⟨p | (_ | b), v⟩ <;> rfl

section Decides

variable {around beside : Cursor W α → Cursor W β} {h : α → Act W (Option β)}

/-- A stage upon a stage is one stage. -/
theorem Decides.upon {upper : Cursor W β → Cursor W γ} {g : β → Act W (Option γ)}
    (hu : Decides upper g) (hd : Decides around h) :
    Decides (fun c => upper (around c)) (fun a => (h a).andThen (orNone g)) where
  steps _ := hu.steps _
  tick c w := by
    rw [hu.tick, hd.tick]
    rcases c.tick w with ⟨m, c, v⟩
    cases m with
    | yield a =>
      simp only [relay, andThen]
      rcases h a v with ⟨p | (_ | b), v⟩ <;> rfl
    | _ => rfl

theorem Decides.lockstep (hd : Decides around h) (he : Decides beside h) :
    Lockstep fun x y => ∃ c, x = around c ∧ y = beside c := by
  apply Lockstep.of_tick
  · rintro _ _ ⟨c, rfl, rfl⟩
    exact ⟨hd.steps c, he.steps c⟩
  · rintro _ _ ⟨c, rfl, rfl⟩ w
    rw [hd.tick, he.tick]
    rcases c.tick w with ⟨m, c, v⟩
    cases m <;> exact ⟨rfl, ⟨c, rfl, rfl⟩, rfl⟩

end Decides

/-- An element that the callback panics on has been counted, whichever of the two stages counts. -/
theorem lockstep_limit_map (f : α → Act W β) :
    Lockstep fun x y => ∃ n c, x = limit n (map f c) ∧ y = map f (limit n c) := by
  apply Lockstep.of_tick
  · rintro _ _ ⟨n, c, rfl, rfl⟩
    exact ⟨id, id⟩
  · rintro _ _ ⟨_ | n, c, rfl, rfl⟩ w
    · rw [tick_limit_zero, tick_map, tick_limit_zero]
      exact ⟨rfl, ⟨0, c, rfl, rfl⟩, rfl⟩
    · rw [tick_limit_succ, tick_map, tick_map, tick_limit_succ]
      rcases c.tick w with ⟨m, c, v⟩
      cases m with
      | silent => exact ⟨rfl, ⟨n + 1, c, rfl, rfl⟩, rfl⟩
      | yield a =>
        simp only [relay]
        rcases f a v with ⟨p | b, v⟩ <;> exact ⟨rfl, ⟨n, c, rfl, rfl⟩, rfl⟩
      | done => exact ⟨rfl, ⟨0, c, rfl, rfl⟩, rfl⟩
      | panic p => exact ⟨rfl, ⟨n, c, rfl, rfl⟩, rfl⟩

end Cursor

/-! ## Streams -/

namespace Stream

open Act Cursor

variable {s : Stream W α}

theorem map_of_live (hs : s.knownEmpty = false) (f : α → Act W β) : s.map f = .mapping f s := by
  simp [map, hs]

theorem filter_of_live (hs : s.knownEmpty = false) (p : α → Act W Bool) :
    s.filter p = .filtering p s := by
  simp [filter, hs]

theorem filterMap_of_live (hs : s.knownEmpty = false) (h : α → Act W (Option β)) :
    s.filterMap h = .choosing h s := by
  simp [filterMap, hs]

/-- Stages upon one stream that decide alike cannot be told apart. -/
theorem replies_of_decides {t t' : Stream W β} {around beside : Cursor W α → Cursor W β}
    {h : α → Act W (Option β)} (hd : Decides around h) (he : Decides beside h)
    (ht : t.cursor = s.cursor.andThen fun c => done (around c))
    (ht' : t'.cursor = s.cursor.andThen fun c => done (beside c)) : t.replies = t'.replies :=
  replies_eq (hd.lockstep he) (fun c => ⟨c, rfl, rfl⟩) ht ht'

theorem replies_filter_map (s : Stream W α) (p : α → Act W Bool) (f : α → Act W β) :
    ((s.filter p).map f).replies = (s.filterMap (chosen p f)).replies := by
  cases hs : s.knownEmpty with
  | true => rw [eq_empty hs]; rfl
  | false =>
    rw [filter_of_live hs, map_of_live rfl, filterMap_of_live hs]
    have hd := (Decides.map f).upon (Decides.filter p)
    simp only [kept_always] at hd
    exact replies_of_decides hd (.filterMap _) (andThen_assoc _ _ _) rfl

theorem replies_map_nonNull (s : Stream W α) (h : α → Act W (Option β)) :
    (s.map h).nonNull.replies = (s.filterMap h).replies := by
  cases hs : s.knownEmpty with
  | true => rw [eq_empty hs]; rfl
  | false =>
    rw [map_of_live hs, nonNull, filterMap_of_live rfl, filterMap_of_live hs]
    have hd := (Decides.filterMap done).upon (Decides.map h)
    simp only [always_done] at hd
    exact replies_of_decides hd (.filterMap _) (andThen_assoc _ _ _) rfl

theorem replies_map_map (s : Stream W α) (f : α → Act W β) (g : β → Act W γ) :
    ((s.map f).map g).replies = (s.map fun a => (f a).andThen g).replies := by
  cases hs : s.knownEmpty with
  | true => rw [eq_empty hs]; rfl
  | false =>
    rw [map_of_live hs, map_of_live rfl, map_of_live hs]
    have hd := (Decides.map g).upon (Decides.map f)
    simp only [always_always] at hd
    exact replies_of_decides hd (.map _) (andThen_assoc _ _ _) rfl

theorem replies_map_limit (s : Stream W α) (f : α → Act W β) (n : Nat) :
    ((s.map f).limit n).replies = ((s.limit n).map f).replies := by
  rcases Nat.eq_zero_or_pos n with rfl | hn
  · rw [limit_zero, limit_zero, map_empty]
  cases hs : s.knownEmpty with
  | true => rw [eq_empty hs, limit_empty, map_empty, limit_empty]
  | false =>
    rw [map_of_live hs, limit_of_live rfl hn, limit_of_live hs hn, map_of_live rfl]
    exact replies_eq (lockstep_limit_map f) (fun c => ⟨n, c, rfl, rfl⟩) (andThen_assoc _ _ _)
      (andThen_assoc _ _ _)

/-- No session can tell stages from the one that they are merged into, nor a stage that maps from
one that maps behind a limit: all calls come back alike, also after panics, and leave the same
world. -/
theorem merging_unnoticed (s : Stream W α) (p : α → Act W Bool) (f : α → Act W β)
    (g : β → Act W γ) :
    ((s.filter p).map f).replies = (s.filterMap (chosen p f)).replies ∧
      (s.map (chosen p f)).nonNull.replies = (s.filterMap (chosen p f)).replies ∧
      ((s.map f).map g).replies = (s.map fun a => (f a).andThen g).replies ∧
      ∀ n, ((s.map f).limit n).replies = ((s.limit n).map f).replies :=
  ⟨replies_filter_map s p f, replies_map_nonNull s _, replies_map_map s f g, replies_map_limit s f⟩

end Stream

end PullStream
