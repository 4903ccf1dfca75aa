import PullStream.Proofs.Concatenation
import PullStream.Proofs.Cursor.Handover
import PullStream.Proofs.Cursor.Story
import PullStream.Proofs.Cursor.Termination
import PullStream.Tree

/-!
# Inputs that cannot be opened

A concatenation opens its next input in the step in which the one before has ended. When the opening
panics, the panic comes out of that step and the input is lost: it is not opened again. What is left
is a stage with neither half around which the stages for the other inputs stand as before, so the
next step passes on to the next input. `Queued` tells what comes of the inputs to come, any of which
may be lost, and `worksThrough_leftward` goes from one input to the next by induction on how many
are to come.
-/

set_option autoImplicit false

namespace PullStream

open Cursor Moves

variable {W α : Type}

/-- The inputs to come are opened and their cursors stepped to the end, one after the other. -/
def Queued : List (Stream W α) → Sequel W α
  | [] => Exhausted
  | s :: rest => Stretch.followed (s.Shows Handed) (Queued rest)

theorem queued_nil (rest : List (Stream W α)) (b w : W) : Queued rest b w [] := by
  cases rest with
  | nil => exact .inl rfl
  | cons s rest => exact ⟨[], [], none, rfl, .cut, rfl⟩

namespace Cursor

/-- What a concatenation is left as when its open input cannot be opened. -/
def bereft (rest : List (Stream W α)) : Cursor W α := rest.foldl .first .empty

theorem foldl_first_orderly {c : Cursor W α} (hs : c.Strides) (hb : c.InBounds)
    (rest : List (Stream W α)) :
    (rest.foldl .first c).Strides ∧ (rest.foldl .first c).InBounds := by
  induction rest generalizing c with
  | nil => exact ⟨hs, hb⟩
  | cons s rest ih => exact ih trivial hb

theorem leftward_orderly {c : Cursor W α} (hb : c.InBounds) (k : Nat) (s : Stream W α)
    (rest : List (Stream W α)) :
    (leftward k (s :: rest) c).Strides ∧ (leftward k (s :: rest) c).InBounds := by
  have ha : (arrived k c).InBounds := by
    cases k with
    | zero => exact hb
    | succ k => exact hb
  exact foldl_first_orderly (c := .first (arrived k c) s) trivial ha rest

/-- What is around an input that ends opens the next one. -/
theorem tick_leftward_done {c d : Cursor W α} {w v : W} (h : c.tick w = (.done, d, v)) (k : Nat)
    (s : Stream W α) (rest : List (Stream W α)) :
    (leftward k (s :: rest) c).tick w =
      opening s (leftward (k + 1) rest) (bereft rest) .silent v := by
  have hf : (first (arrived k c) s).tick w = opening s .second .empty .silent v := by
    rw [tick_first, tick_arrived h]
  unfold opening at hf ⊢
  rcases hs : s.cursor v with ⟨p | e, u⟩ <;> rw [hs] at hf
  · exact tick_foldl_first hf nofun rest
  · exact tick_foldl_first hf nofun rest

theorem tick_bereft_cons (s : Stream W α) (rest : List (Stream W α)) (w : W) :
    (bereft (s :: rest)).tick w = opening s (leftward 1 rest) (bereft rest) .silent w :=
  tick_leftward_done (c := .empty) (tick_empty w) 0 s rest

/-- Something is known of every cursor that the last of the inputs is opened to. -/
def LastOpens (P : Cursor W α → Prop) (inputs : List (Stream W α)) : Prop :=
  ∀ before s, inputs = before ++ [s] → ∀ c w v, s.cursor w = (.ok c, v) → P c

theorem lastOpens_firm_of_rests {c : Cursor W α} {rest : List (Stream W α)}
    (h : (rest.foldl .first c).Rests) : LastOpens Cursor.Firm rest := by
  rintro before s rfl c w v ho
  rw [List.foldl_append] at h
  exact Stream.cursor_firm (s := s) h ho

section Sealed

variable {out : Cursor W α → Cursor W α} {P : Cursor W α → Prop}

/-- As long as the open input has not ended, the shape around it does not show. -/
theorem worksThrough_of_ends (hs : ∀ k, Seals out P (leftward k [])) {k : Nat}
    {rest : List (Stream W α)}
    (h : ∀ {c d w v}, (rest = [] → P c) → c.tick w = (.done, d, v) →
      Bears ((out (leftward k rest c)).tick w) fun _ b l => Queued rest b v l) :
    WorksThrough (fun c => rest = [] → P c) (fun c => out (leftward k rest c)) Handed
      fun _ => Queued rest where
  kept hc ht hn := (hs k).kept (hc hn) ht
  mono := id
  silent h := (hs k).moves (relays_leftward.moves h nofun) nofun
  panics h := (hs k).moves (relays_leftward.moves h nofun) nofun
  yields h := by
    rw [(hs k).moves (relays_leftward.moves h nofun) nofun]
    exact bears_handed _ _ _
  ends := h

/-- The stages around the open input work through it and then through the inputs to come, and so
does what they leave when the open input is lost. -/
theorem worksThrough_leftward (hs : ∀ k, Seals out P (leftward k [])) (he : P .empty)
    (rest : List (Stream W α)) (hp : LastOpens P rest) :
    (∀ k, WorksThrough (fun c => rest = [] → P c) (fun c => out (leftward k rest c)) Handed
      fun _ => Queued rest) ∧
      ∀ w, Bears (.silent, out (bereft rest), w) fun _ b l => Queued rest b w l := by
  -- both at once: an input that is lost leaves `bereft`, and `bereft` opens the next one
  induction rest with
  | nil =>
    refine ⟨fun k => worksThrough_of_ends hs fun hc h => ?_, fun w => .of_tick (queued_nil [] · w) ?_⟩
    · exact (hs k).bears (hc rfl) (relays_leftward.ends h)
    · exact (hs 0).bears he (tick_empty w)
  | cons s rest ih =>
    obtain ⟨hr, hl⟩ := ih fun before t ht => hp (s :: before) t (congrArg (s :: ·) ht)
    have ho : ∀ {c w v}, s.cursor w = (.ok c, v) → rest = [] → P c := by
      rintro c w v ho rfl
      exact hp [] s rfl c w v ho
    refine ⟨fun k => worksThrough_of_ends hs fun _ h => ?_, fun w => .of_tick (queued_nil _ · w) ?_⟩
    · rw [(hs k).opening (tick_leftward_done h k s rest)]
      exact (hr (k + 1)).bears_opening hl s _ ho
    · rw [(hs 0).opening (tick_bereft_cons s rest w)]
      exact (hr 1).bears_opening hl s w ho

end Sealed

theorem leftward_firm (k : Nat) {c : Cursor W α} (h : c.Firm) : (leftward k [] c).Firm := by
  cases k with
  | zero => exact h
  | succ k => exact ⟨h.inBounds, h.rests⟩

theorem seals_leftward (k : Nat) : Seals id Firm (leftward (W := W) (α := α) k []) :=
  seals_firm (leftward_firm k)

theorem enacts_bereft {rest : List (Stream W α)} (h : (bereft rest).Rests) :
    (bereft rest).Enacts (Queued rest) := by
  have ho := foldl_first_orderly (c := (empty : Cursor W α)) trivial trivial rest
  exact enacts_of_bears ho.1 ho.2
    (worksThrough_leftward seals_leftward firm_empty rest (lastOpens_firm_of_rests h)).2

theorem enacts_bereft_fused (rest : List (Stream W α)) :
    (fused false (bereft rest)).Enacts (Queued rest) := by
  have ho := foldl_first_orderly (c := (empty : Cursor W α)) trivial trivial rest
  exact enacts_of_bears ho.1 ho.2 (worksThrough_leftward (fun k => seals_fused (leftward k []))
    trivial rest fun _ _ _ _ _ _ _ => trivial).2

/-- The step in which the open input has ended and the next one cannot be opened. -/
theorem settles_lost {c d : Cursor W α} {w v u : W} {p : Panic} {s : Stream W α}
    (hs : Settles (c.step · w) (.ok .done, d, v)) (ho : s.cursor v = (.error p, u)) (k : Nat)
    (rest : List (Stream W α)) :
    Settles ((leftward k (s :: rest) c).step · w) (.error p, bereft rest, u) := by
  apply ensues_of_step hs
    (P := fun c w => Settles ((leftward k (s :: rest) c).step · w) (.error p, bereft rest, u))
  · intro c w e u ht hm
    exact settles_step_silent (relays_leftward.moves ht nofun) hm
  · intro c w ht
    have hl := tick_leftward_done ht k s rest
    rw [opening, ho] at hl
    exact settles_step_panic hl

end Cursor

namespace Stream

theorem lastOpens_of_rests {first : Stream W α} {rest : List (Stream W α)}
    (h : (joined (first :: rest)).Rests) : LastOpens Cursor.Firm rest := by
  rintro before s rfl c w v ho
  rw [joined, List.foldl_append] at h
  exact cursor_firm (s := s) h ho

/-- Inputs of which there is more than one are told one after the other. -/
theorem joined_toldBy (first next : Stream W α) (rest : List (Stream W α)) :
    ((joined (first :: next :: rest)).Rests → (joined (first :: next :: rest)).ToldBy first fun c =>
        Stretch.followed (c.Shows Handed) (Queued (next :: rest))) ∧
      (joined (first :: next :: rest)).reopen.ToldBy first fun c =>
        Stretch.followed (c.Shows Handed) (Queued (next :: rest)) := by
  have hb : ∀ c : Cursor W α, c.InBounds → _ := fun c hc => leftward_orderly hc 0 next rest
  constructor
  · intro h
    have hw := worksThrough_leftward seals_leftward firm_empty (next :: rest) (lastOpens_of_rests h)
    exact toldBy_of_worksThrough (hw.1 0) (cursor_joined first _) (fun _ => nofun) hb
  · have hw := worksThrough_leftward (fun k => seals_fused (leftward (W := W) (α := α) k []))
      trivial (next :: rest) fun _ _ _ _ _ _ _ => trivial
    refine toldBy_of_worksThrough (hw.1 0) ?_ (fun _ => nofun) hb
    show (joined _).cursor.andThen _ = _
    rw [cursor_joined, Act.andThen_assoc]
    rfl

/-- A panic in the opening of an input comes out of the step that would have passed on to it, and
loses this input and no other. Whatever is called on a concatenation, its session is told by the
inputs one after the other, each of them opened once and drained to its end unless it is lost; what
a lost input leaves goes on with those behind it. Of two inputs nothing is left when the second one
is lost, and neither is touched again. Only the last input could be asked again behind its end, and
if it does not rest there, the story is that of the sessions with a mark of the end. -/
theorem lost_inputs_only (W α : Type) :
    (∀ (inputs : List (Stream W α)) (first next : Stream W α) (rest : List (Stream W α)),
      live inputs = first :: next :: rest →
        ((all inputs).Rests → (all inputs).ToldBy first fun c =>
          Stretch.followed (c.Shows Handed) (Queued (next :: rest))) ∧
        ((all inputs).reopen.ToldBy first fun c =>
          Stretch.followed (c.Shows Handed) (Queued (next :: rest))) ∧
        ∀ (k : Nat) (c d : Cursor W α) (w v u : W) (p : Panic),
          Settles (c.step · w) (.ok .done, d, v) → next.cursor v = (.error p, u) →
            ∃ lost, Settles ((leftward k (next :: rest) c).step · w) (.error p, lost, u) ∧
              (lost.Rests → lost.Enacts (Queued rest)) ∧
              (Cursor.fused false lost).Enacts (Queued rest)) ∧
    ∀ a b : Stream W α, a.knownEmpty = false → b.knownEmpty = false →
      (b.Rests → (a.concat b).ToldBy a fun c => Stretch.followed (c.Shows Handed) (Queued [b])) ∧
      ((a.concat b).reopen.ToldBy a fun c => Stretch.followed (c.Shows Handed) (Queued [b])) ∧
      (a.concat b).cursor = (a.cursor.andThen fun c => Act.done (.first c b)) ∧
      ∀ (c d : Cursor W α) (w v u : W) (p : Panic),
        Settles (c.step · w) (.ok .done, d, v) → b.cursor v = (.error p, u) →
          ∃ lost, Settles ((Cursor.first c b).step · w) (.error p, lost, u) ∧
            lost.StaysEnded := by
  constructor
  · intro inputs first next rest h
    rw [all_eq_joined, h]
    obtain ⟨ht, hf⟩ := joined_toldBy first next rest
    exact ⟨ht, hf, fun k c d w v u p hs ho =>
      ⟨_, settles_lost hs ho k rest, enacts_bereft, enacts_bereft_fused rest⟩⟩
  · intro a b ha hb
    rw [concat_of_live ha hb]
    obtain ⟨ht, hf⟩ := joined_toldBy a b []
    refine ⟨ht, hf, rfl, fun c d w v u p hs ho => ⟨.empty, settles_lost hs ho 0 [], ?_⟩⟩
    have he : (Cursor.empty : Cursor W α).Ended := trivial
    exact he.staysEnded

/-- A tree whose root is written down and then found to have no children to ask for. -/
def rootless : TreeStream (List Nat) Nat Nat where
  root := 0
  children n := (Act.change (n :: ·)).andThen fun _ => Act.fail "no children"
  book _ := .empty
  includesRoot := false

theorem lost_inputs_only_rootless :
    (∃ c d, (ofArray #[1]).cursor [] = (.ok c, []) ∧
      (all [ofArray #[1], rootless.stream, ofArray #[3]]).cursor [] = (.ok d, []) ∧
      ∃ b l, Stretch.followed (c.Shows Handed) (Queued [rootless.stream, ofArray #[3]]) b b l ∧
        Made [] [.step, .step, .advanceBy 1, .step] l [(.ok (.stepped (.yield 1)), []),
          (.error ⟨"no children"⟩, [0]), (.ok (.advanced true), [0]),
          (.ok (.stepped .done), [0])]) ∧
      (∃ lost, Settles ((leftward 0 [rootless.stream, ofArray #[3]] (.slice #[1] 1)).step · [])
          (.error ⟨"no children"⟩, lost, [0]) ∧ lost.Rests ∧ lost.Enacts (Queued [ofArray #[3]])) ∧
      ∃ lost, Settles ((Cursor.first (.slice #[1] 1) rootless.stream).step · [])
        (.error ⟨"no children"⟩, lost, [0]) ∧ lost.StaysEnded := by
  obtain ⟨hall, hpair⟩ := lost_inputs_only (List Nat) Nat
  obtain ⟨ht, -, hl⟩ := hall [ofArray #[1], rootless.stream, ofArray #[3]] _ _ _ rfl
  obtain ⟨-, -, -, hp⟩ := hpair (ofArray #[1]) rootless.stream rfl rfl
  have hs : Settles ((Cursor.slice #[1] 1 : Cursor (List Nat) Nat).step · [])
      (.ok .done, .slice #[1] 1, []) := settles_step_done rfl
  obtain ⟨lost, hs', he, -⟩ := hl 0 _ _ _ _ _ _ hs rfl
  refine ⟨?_, ⟨lost, hs', ?_⟩, hp _ _ _ _ _ _ hs rfl⟩
  · rcases ht trivial [] with ⟨p, v, hc, -⟩ | ⟨c, d, v, hc, hd, h⟩
    · cases hc
    · cases hc
      cases hd
      refine ⟨_, _, rfl, rfl, (h [] [.step, .step, .advanceBy 1, .step] _).mp ⟨2, fun fuel hf => ?_⟩⟩
      obtain ⟨k, rfl⟩ := Nat.exists_eq_add_of_le' hf
      rfl
  · have hr : lost.Rests := by
      cases hs'.unique (settles_lost hs rfl 0 [ofArray #[3]])
      trivial
    exact ⟨hr, he hr⟩

end Stream

end PullStream
