import PullStream.Proofs.Cursor.Bounds

/-!
# What overlooks a part of the world

A map `g` of worlds changes a part of the world that some callbacks neither read nor write. Such a
callback overlooks `g`: from the changed world it comes to the same answer or panic, and the world
that it leaves is changed in the same way. A recipe whose callbacks and sources overlook `g` is
opened alike in both worlds, every move of its cursors comes out alike, and they stay as they are.
-/

set_option autoImplicit false

namespace PullStream

universe u v

variable {W : Type} {g : W → W}

/-- The same outcome, in the world that `g` makes of the one it came with. -/
def carry {ρ : Type u} {ω : Type v} (g : ω → ω) (x : ρ × ω) : ρ × ω := (x.1, g x.2)

@[simp] theorem carry_mk {ρ : Type u} {ω : Type v} (g : ω → ω) (r : ρ) (w : ω) :
    carry g (r, w) = (r, g w) := rfl

/-! ## Callbacks -/

namespace Act

variable {α : Type u} {β : Type v}

def Overlooks (g : W → W) (x : Act W α) : Prop := ∀ w, x (g w) = carry g (x w)

theorem overlooks_done (a : α) : (done a : Act W α).Overlooks g := fun _ => rfl

theorem overlooks_fail (message : String) : (fail message : Act W α).Overlooks g := fun _ => rfl

theorem overlooks_change {f : W → W} (h : ∀ w, f (g w) = g (f w)) : (change f).Overlooks g :=
  fun w => by simp only [change, h, carry_mk]

theorem Overlooks.andThen {x : Act W α} {f : α → Act W β} (hx : x.Overlooks g)
    (hf : ∀ a, (f a).Overlooks g) : (x.andThen f).Overlooks g := by
  intro w
  simp only [Act.andThen, hx w]
  rcases x w with ⟨_ | a, v⟩
  · rfl
  · exact hf a v

theorem Overlooks.bind {α β : Type u} {x : Act W α} {f : α → Act W β} (hx : x.Overlooks g)
    (hf : ∀ a, (f a).Overlooks g) : (x >>= f).Overlooks g :=
  hx.andThen hf

end Act

/-! ## Recipes and cursors -/

structure Source.Overlooks {σ α : Type} (g : W → W) (src : Source W σ α) : Prop where
  pull : ∀ s w, src.pull s (g w) = carry (carry g) (src.pull s w)
  jump : ∀ jump ∈ src.jump, ∀ n s w, jump n s (g w) = carry (carry g) (jump n s w)

/-- Of everything that a session over the stream may come to call, callbacks have the property `P`
and sources the property `Q`. -/
def Stream.Calls (P : ∀ β : Type, Act W β → Prop) (Q : ∀ σ β : Type, Source W σ β → Prop) :
    {α : Type} → Stream W α → Prop
  | _, .empty => True
  | _, .items _ => True
  | _, .source start src => P _ start ∧ Q _ _ src
  | _, .fused s => s.Calls P Q
  | _, .deferred start book => P _ start ∧ ∀ i, (book i).Calls P Q
  | _, .mapping f s => (∀ b, P _ (f b)) ∧ s.Calls P Q
  | _, .filtering p s => (∀ a, P _ (p a)) ∧ s.Calls P Q
  | _, .choosing f s => (∀ b, P _ (f b)) ∧ s.Calls P Q
  | _, .joining a b => a.Calls P Q ∧ b.Calls P Q
  | _, .skipping _ s => s.Calls P Q
  | _, .capping _ s => s.Calls P Q
  | _, .deduplicating _ key s => (∀ a, P _ (key a)) ∧ s.Calls P Q
  | _, .excluding _ key other s => (∀ a, P _ (key a)) ∧ other.Calls P Q ∧ s.Calls P Q
  | _, .flattening book s => (∀ i, (book i).Calls P Q) ∧ s.Calls P Q
  | _, .descending visit book s =>
    (∀ level b, P _ (visit level b)) ∧ (∀ i, (book i).Calls P Q) ∧ s.Calls P Q

def Stream.Overlooks {α : Type} (g : W → W) (s : Stream W α) : Prop :=
  s.Calls (fun _ => Act.Overlooks g) (fun _ _ => Source.Overlooks g)

def Cursor.Overlooks (g : W → W) : {α : Type} → Cursor W α → Prop
  | _, .empty => True
  | _, .slice _ _ => True
  | _, .source src _ _ => src.Overlooks g
  | _, .fused _ c => c.Overlooks g
  | _, .map f c => (∀ b, (f b).Overlooks g) ∧ c.Overlooks g
  | _, .filter p c => (∀ a, (p a).Overlooks g) ∧ c.Overlooks g
  | _, .filterMap f c => (∀ b, (f b).Overlooks g) ∧ c.Overlooks g
  | _, .first c later => later.Overlooks g ∧ c.Overlooks g
  | _, .second c => c.Overlooks g
  | _, .tail _ c => c.Overlooks g
  | _, .limit _ c => c.Overlooks g
  | _, .distinct _ key _ c => (∀ a, (key a).Overlooks g) ∧ c.Overlooks g
  | _, .excludeFresh _ key other c =>
    (∀ a, (key a).Overlooks g) ∧ other.Overlooks g ∧ c.Overlooks g
  | _, .excludeDrain _ key other d _ c =>
    (∀ a, (key a).Overlooks g) ∧ other.Overlooks g ∧ d.Overlooks g ∧ c.Overlooks g
  | _, .excludeReady _ key _ c => (∀ a, (key a).Overlooks g) ∧ c.Overlooks g
  | _, .flatten book outer => (∀ i, (book i).Overlooks g) ∧ outer.Overlooks g
  | _, .flattenIn book inner outer =>
    (∀ i, (book i).Overlooks g) ∧ inner.Overlooks g ∧ outer.Overlooks g
  | _, .descend visit book c =>
    (∀ level b, (visit level b).Overlooks g) ∧ (∀ i, (book i).Overlooks g) ∧ c.Overlooks g
  | _, .dive visit book _ top rest =>
    (∀ level b, (visit level b).Overlooks g) ∧ (∀ i, (book i).Overlooks g) ∧
      top.Overlooks g ∧ rest.Overlooks g

variable {α β ι κ : Type}

namespace Stream

theorem Overlooks.cursor {s : Stream W α} (hs : s.Overlooks g) : s.cursor.Overlooks g := by
  induction s with
  | empty => exact Act.overlooks_done _
  | items xs => exact Act.overlooks_done _
  | source start src => exact hs.1.andThen fun _ => Act.overlooks_done _
  | deferred start book ih => exact hs.1.andThen fun i => ih i (hs.2 i)
  | fused _ ih | skipping _ _ ih | capping _ _ ih =>
    exact (ih hs).andThen fun _ => Act.overlooks_done _
  | joining _ _ ih => exact (ih hs.1).andThen fun _ => Act.overlooks_done _
  | mapping _ _ ih | filtering _ _ ih | choosing _ _ ih | deduplicating _ _ _ ih
  | flattening _ _ _ ih => exact (ih hs.2).andThen fun _ => Act.overlooks_done _
  | excluding _ _ _ _ _ ih | descending _ _ _ _ ih =>
    exact (ih hs.2.2).andThen fun _ => Act.overlooks_done _

theorem Overlooks.opened {s : Stream W α} (hs : s.Overlooks g) {c : Cursor W α} {w w' : W}
    (h : s.cursor w = (.ok c, w')) : c.Overlooks g := by
  induction s generalizing w w' with
  | empty | items =>
    cases h
    trivial
  | source start src =>
    obtain ⟨s, v, -, he⟩ := Act.andThen_ok h
    cases he
    exact hs.2
  | deferred start book ih =>
    obtain ⟨i, v, -, hi⟩ := Act.andThen_ok h
    exact ih i (hs.2 i) hi
  | fused _ ih | skipping _ _ ih | capping _ _ ih =>
    obtain ⟨d, v, hd, he⟩ := Act.andThen_ok h
    cases he
    have hc := ih hs hd
    exact hc
  | joining _ _ ih =>
    obtain ⟨d, v, hd, he⟩ := Act.andThen_ok h
    cases he
    exact ⟨hs.2, ih hs.1 hd⟩
  | mapping _ _ ih | filtering _ _ ih | choosing _ _ ih | deduplicating _ _ _ ih
  | flattening _ _ _ ih =>
    obtain ⟨d, v, hd, he⟩ := Act.andThen_ok h
    cases he
    exact ⟨hs.1, ih hs.2 hd⟩
  | excluding _ _ _ _ _ ih | descending _ _ _ _ ih =>
    obtain ⟨d, v, hd, he⟩ := Act.andThen_ok h
    cases he
    exact ⟨hs.1, hs.2.1, ih hs.2.2 hd⟩

end Stream

theorem Cursor.Becomes.overlooks {c d : Cursor W α} (h : c.Becomes d) (hc : c.Overlooks g) :
    d.Overlooks g := by
  -- a cursor that comes in is opened on a stream that was waiting in the old one
  induction h with
  | stay | slice | source => exact hc
  | handOver ho =>
    have hd := hc.1.opened ho
    exact hd
  | handOverLost | descentEnded => trivial
  | drainOpened ho => exact ⟨hc.1, hc.2.1, hc.2.1.opened ho, hc.2.2⟩
  | drain h ih => exact ⟨hc.1, hc.2.1, ih hc.2.2.1, hc.2.2.2⟩
  | drainLost => exact ⟨hc.1, hc.2.1, hc.2.2.2⟩
  | drained => exact ⟨hc.1, hc.2.2.2⟩
  | innerOpened h ho ih => exact ⟨hc.1, (hc.1 _).opened ho, ih hc.2⟩
  | flattenIn h ih => exact ⟨hc.1, ih hc.2.1, hc.2.2⟩
  | innerEnded => exact ⟨hc.1, hc.2.2⟩
  | descend h ih => exact ⟨hc.1, hc.2.1, ih hc.2.2⟩
  | entered h _ ho ih => exact ⟨hc.1, hc.2.1, (hc.2.1 _).opened ho, hc.1, hc.2.1, ih hc.2.2⟩
  | dive h ih => exact ⟨hc.1, hc.2.1, ih hc.2.2.1, hc.2.2.2⟩
  | enteredDeeper h _ ho ih =>
    exact ⟨hc.1, hc.2.1, (hc.2.1 _).opened ho, hc.1, hc.2.1, ih hc.2.2.1, hc.2.2.2⟩
  | surfaced => exact hc.2.2.2
  | map h ih | filter h ih | filterMap h ih | first h ih | distinct h ih | excludeReady h ih
  | flatten h ih => exact ⟨hc.1, ih hc.2⟩
  | fused h ih | second h ih | tail h ih | limit h hm ih =>
    have hd := ih hc
    exact hd

/-! ## Moves -/

namespace Moves

theorem relay_carry {wrap : Cursor W β → Cursor W α}
    {onYield : β → Cursor W β → W → Move α × Cursor W α × W}
    (hy : ∀ b d w, onYield b d (g w) = carry (carry g) (onYield b d w))
    (x : Move β × Cursor W β × W) :
    relay wrap onYield (carry (carry g) x) = carry (carry g) (relay wrap onYield x) := by
  rcases x with ⟨_ | b | _ | p, d, w⟩
  · rfl
  · exact hy b d w
  · rfl
  · rfl

theorem skipBySteps_carry {c : Cursor W α} {tick : W → Move α × Cursor W α × W}
    (ht : ∀ w, tick (g w) = carry (carry g) (tick w)) (n : Nat) (w : W) :
    skipBySteps c tick n (g w) = carry (carry g) (skipBySteps c tick n w) := by
  cases n with
  | zero => rfl
  | succ n =>
    simp only [skipBySteps, ht w]
    rcases tick w with ⟨_ | _ | _ | _, d, v⟩ <;> rfl

theorem opening_carry {s : Stream W β} (hs : s.Overlooks g) (opened : Cursor W β → Cursor W α)
    (lost : Cursor W α) (m : Move α) (w : W) :
    opening s opened lost m (g w) = carry (carry g) (opening s opened lost m w) := by
  simp only [opening, hs.cursor w]
  rcases s.cursor w with ⟨_ | c, v⟩ <;> rfl

theorem descent_carry {visit : Nat → β → Act W (Visit ι α)} {book : ι → Stream W β}
    (hv : ∀ level b, (visit level b).Overlooks g) (hb : ∀ i, (book i).Overlooks g) (level : Nat)
    (b : β) (rest : Cursor W α) (w : W) :
    descent visit book level b rest (g w) =
      carry (carry g) (descent visit book level b rest w) := by
  simp only [descent, hv level b w]
  rcases visit level b w with ⟨_ | ⟨a | i | ⟨a, i⟩⟩, v⟩
  · rfl
  · rfl
  · exact opening_carry (hb i) _ _ _ v
  · exact opening_carry (hb i) _ _ _ v

theorem pull_carry {σ : Type} {src : Source W σ α} (hs : src.Overlooks g) (ended : Bool) (s : σ)
    (w : W) : pull src ended s (g w) = carry (carry g) (pull src ended s w) := by
  cases ended
  · simp only [pull, hs.pull s w, Bool.false_eq_true, if_false]
    rcases src.pull s w with ⟨_ | _ | _, _, _⟩ <;> rfl
  · rfl

end Moves

namespace Cursor

open Moves

/-- Every single move of the cursor comes out alike in both worlds. -/
structure Unaware (g : W → W) (c : Cursor W α) : Prop where
  tick : ∀ w, c.tick (g w) = carry (carry g) (c.tick w)
  skip : ∀ n w, c.skip n (g w) = carry (carry g) (c.skip n w)

theorem Unaware.of_tick {c : Cursor W α} (hj : ¬ c.Jumps)
    (ht : ∀ w, c.tick (g w) = carry (carry g) (c.tick w)) : c.Unaware g where
  tick := ht
  skip n w := by
    rw [skip_eq_skipBySteps hj]
    exact skipBySteps_carry ht n w

theorem unaware_slice (xs : Array α) (i : Nat) : (slice xs i : Cursor W α).Unaware g where
  tick w := by
    simp only [tick_slice]
    rcases xs[i]? with _ | a <;> rfl
  skip n w := by
    simp only [skip_slice]
    split <;> rfl

theorem unaware_source {σ : Type} {src : Source W σ α} (hs : src.Overlooks g) (ended : Bool)
    (s : σ) : (source src ended s).Unaware g where
  tick := pull_carry hs ended s
  skip n w := by
    rw [skip_source]
    rcases hj : src.jump with _ | jump
    · exact skipBySteps_carry (pull_carry hs ended s) n w
    · cases ended
      · simp only [hs.jump jump hj n s w, Bool.false_eq_true, if_false]
        rcases jump n s w with ⟨_ | _, _, _⟩ <;> rfl
      · rfl

section Stages

variable {c : Cursor W α}

theorem Unaware.fused (hc : c.Unaware g) (ended : Bool) : (fused ended c).Unaware g where
  tick w := by
    cases ended
    · simp only [tick_fused, hc.tick w, Bool.false_eq_true, if_false]
      rcases c.tick w with ⟨_ | _ | _ | _, d, v⟩ <;> rfl
    · rfl
  skip n w := by
    cases ended
    · simp only [skip_fused, hc.skip n w, Bool.false_eq_true, if_false]
      rcases c.skip n w with ⟨_ | _ | _, d, v⟩ <;> rfl
    · rfl

/-- A stage that hands on the moves of the cursor inside it only has to account for elements. -/
theorem Unaware.relay {wrap : Cursor W α → Cursor W β}
    {onYield : α → Cursor W α → W → Move β × Cursor W β × W} (hc : c.Unaware g)
    (hj : ¬ (wrap c).Jumps)
    (ht : ∀ w, (wrap c).tick w = Moves.relay wrap onYield (c.tick w))
    (hy : ∀ a d w, onYield a d (g w) = carry (carry g) (onYield a d w)) : (wrap c).Unaware g :=
  .of_tick hj fun w => by rw [ht, ht, hc.tick w, relay_carry hy]

theorem Unaware.map (hc : c.Unaware g) {f : α → Act W β} (hf : ∀ a, (f a).Overlooks g) :
    (map f c).Unaware g :=
  hc.relay id (tick_map f c) fun a d w => by
    simp only [hf a w]
    rcases f a w with ⟨_ | _, _⟩ <;> rfl

theorem Unaware.filter (hc : c.Unaware g) {p : α → Act W Bool} (hp : ∀ a, (p a).Overlooks g) :
    (filter p c).Unaware g :=
  hc.relay id (tick_filter p c) fun a d w => by
    simp only [hp a w]
    rcases p a w with ⟨_ | _ | _, _⟩ <;> rfl

theorem Unaware.filterMap (hc : c.Unaware g) {f : α → Act W (Option β)}
    (hf : ∀ a, (f a).Overlooks g) : (filterMap f c).Unaware g :=
  hc.relay id (tick_filterMap f c) fun a d w => by
    simp only [hf a w]
    rcases f a w with ⟨_ | _ | _, _⟩ <;> rfl

theorem Unaware.second (hc : c.Unaware g) : (second c).Unaware g :=
  hc.relay id (tick_second c) fun _ _ _ => rfl

theorem Unaware.distinct (hc : c.Unaware g) (eq : DecidableEq κ) {key : α → Act W κ}
    (hk : ∀ a, (key a).Overlooks g) (seen : List κ) : (distinct eq key seen c).Unaware g :=
  hc.relay id (tick_distinct eq key seen c) fun a d w => by
    simp only [hk a w]
    rcases key a w with ⟨_ | k, v⟩
    · rfl
    · simp only [carry_mk]
      split <;> rfl

theorem Unaware.excludeReady (hc : c.Unaware g) (eq : DecidableEq κ) {key : α → Act W κ}
    (hk : ∀ a, (key a).Overlooks g) (keys : List κ) : (excludeReady eq key keys c).Unaware g :=
  hc.relay id (tick_excludeReady eq key keys c) fun a d w => by
    simp only [hk a w]
    rcases key a w with ⟨_ | _, _⟩ <;> rfl

theorem Unaware.flatten {outer : Cursor W ι} (hc : outer.Unaware g) {book : ι → Stream W α}
    (hb : ∀ i, (book i).Overlooks g) : (flatten book outer).Unaware g :=
  hc.relay id (tick_flatten book outer) fun i _ w => opening_carry (hb i) _ _ _ w

theorem Unaware.first (hc : c.Unaware g) {later : Stream W α} (hl : later.Overlooks g) :
    (first c later).Unaware g := by
  apply Unaware.of_tick id
  intro w
  simp only [tick_first, hc.tick w]
  rcases c.tick w with ⟨_ | _ | _ | _, d, v⟩
  · rfl
  · rfl
  · exact opening_carry hl _ _ _ v
  · rfl

theorem Unaware.tail (hc : c.Unaware g) (n : Nat) : (tail n c).Unaware g := by
  apply Unaware.of_tick id
  intro w
  cases n with
  | zero => rw [tick_tail_zero, tick_tail_zero, hc.tick w, relay_carry fun _ _ _ => rfl]
  | succ n =>
    simp only [tick_tail_succ, hc.skip (n + 1) w]
    rcases c.skip (n + 1) w with ⟨_ | (_ | _) | _, d, v⟩ <;> rfl

theorem Unaware.limit (hc : c.Unaware g) (n : Nat) : (limit n c).Unaware g := by
  apply Unaware.of_tick id
  intro w
  cases n with
  | zero => rfl
  | succ n =>
    simp only [tick_limit_succ, hc.tick w]
    rcases c.tick w with ⟨_ | _ | _ | _, d, v⟩ <;> rfl

theorem unaware_excludeFresh (eq : DecidableEq κ) (key : α → Act W κ) {other : Stream W α}
    (ho : other.Overlooks g) (c : Cursor W α) : (excludeFresh eq key other c).Unaware g :=
  .of_tick id fun w => opening_carry ho _ _ _ w

theorem Unaware.excludeDrain {d : Cursor W α} (hd : d.Unaware g) (eq : DecidableEq κ)
    {key : α → Act W κ} (hk : ∀ a, (key a).Overlooks g) (other : Stream W α) (keys : List κ)
    (c : Cursor W α) : (excludeDrain eq key other d keys c).Unaware g := by
  apply Unaware.of_tick id
  intro w
  simp only [tick_excludeDrain, hd.tick w]
  rcases d.tick w with ⟨_ | a | _ | _, e, v⟩
  · rfl
  · simp only [carry_mk, hk a v]
    rcases key a v with ⟨_ | _, _⟩ <;> rfl
  · rfl
  · rfl

theorem Unaware.flattenIn {inner : Cursor W α} (hi : inner.Unaware g) (book : ι → Stream W α)
    (outer : Cursor W ι) : (flattenIn book inner outer).Unaware g := by
  apply Unaware.of_tick id
  intro w
  simp only [tick_flattenIn, hi.tick w]
  rcases inner.tick w with ⟨_ | _ | _ | _, d, v⟩ <;> rfl

variable {visit : Nat → β → Act W (Visit ι α)} {book : ι → Stream W β}

theorem Unaware.descend {c : Cursor W β} (hc : c.Unaware g)
    (hv : ∀ level b, (visit level b).Overlooks g) (hb : ∀ i, (book i).Overlooks g) :
    (descend visit book c).Unaware g := by
  apply Unaware.of_tick id
  intro w
  simp only [tick_descend, hc.tick w]
  rcases c.tick w with ⟨_ | b | _ | _, d, v⟩
  · rfl
  · exact descent_carry hv hb 0 b _ v
  · rfl
  · rfl

theorem Unaware.dive {top : Cursor W β} (hc : top.Unaware g)
    (hv : ∀ level b, (visit level b).Overlooks g) (hb : ∀ i, (book i).Overlooks g) (level : Nat)
    (rest : Cursor W α) : (dive visit book level top rest).Unaware g := by
  apply Unaware.of_tick id
  intro w
  simp only [tick_dive, hc.tick w]
  rcases top.tick w with ⟨_ | b | _ | _, d, v⟩
  · rfl
  · exact descent_carry hv hb level b _ v
  · rfl
  · rfl

end Stages

theorem Overlooks.unaware {c : Cursor W α} (hc : c.Overlooks g) : c.Unaware g := by
  induction c with
  | empty => exact .of_tick id fun _ => rfl
  | slice xs i => exact unaware_slice xs i
  | source src ended s => exact unaware_source hc ended s
  | fused ended c ih => exact (ih hc).fused ended
  | map f c ih => exact (ih hc.2).map hc.1
  | filter p c ih => exact (ih hc.2).filter hc.1
  | filterMap f c ih => exact (ih hc.2).filterMap hc.1
  | first c later ih => exact (ih hc.2).first hc.1
  | second c ih => exact (ih hc).second
  | tail n c ih => exact (ih hc).tail n
  | limit n c ih => exact (ih hc).limit n
  | distinct eq key seen c ih => exact (ih hc.2).distinct eq hc.1 seen
  | excludeFresh eq key other c => exact unaware_excludeFresh eq key hc.2.1 c
  | excludeDrain eq key other d keys c ihd => exact (ihd hc.2.2.1).excludeDrain eq hc.1 other keys c
  | excludeReady eq key keys c ih => exact (ih hc.2).excludeReady eq hc.1 keys
  | flatten book outer ih => exact (ih hc.2).flatten hc.1
  | flattenIn book inner outer ihi => exact (ihi hc.2.1).flattenIn book outer
  | descend visit book c ih => exact (ih hc.2.2).descend hc.1 hc.2.1
  | dive visit book level top rest iht => exact (iht hc.2.2.1).dive hc.1 hc.2.1 level rest

end Cursor

end PullStream
