import PullStream.Proofs.Independence.Overlooking
import PullStream.Text

/-!
# Driving and consuming what overlooks a part of the world

Calls on a cursor that overlooks `g` come back alike in a world and in the one that `g` makes of it,
or run out of fuel in both, and the cursor goes on overlooking `g` whatever they came to. So do the
consuming operations on a stream, as long as what they call overlooks `g` too.
-/

set_option autoImplicit false

namespace PullStream

variable {W α β κ ρ ε ι : Type} {g : W → W}

/-! ## Activities -/

namespace Run

def Overlooks (g : W → W) (x : Run W α) : Prop := ∀ w, x (g w) = (x w).map (carry g)

theorem overlooks_ofAct {x : Act W α} (hx : x.Overlooks g) : (ofAct x).Overlooks g :=
  fun w => congrArg some (hx w)

theorem overlooks_pure (a : α) : (pure a : Run W α).Overlooks g := fun _ => rfl

theorem overlooks_exhausted : (exhausted : Run W α).Overlooks g := fun _ => rfl

theorem Overlooks.andThen {x : Run W α} {f : α → Run W β} (hx : x.Overlooks g)
    (hf : ∀ a, (f a).Overlooks g) : (x.andThen f).Overlooks g := by
  intro w
  simp only [Run.andThen, hx w]
  rcases x w with _ | ⟨_ | a, v⟩
  · rfl
  · rfl
  · exact hf a v

/-- What is made of the answer without a look at the world changes nothing. -/
theorem Overlooks.answer {x : Run W α} (hx : x.Overlooks g) (f : α → β) :
    (x.andThen fun a => pure (f a)).Overlooks g :=
  hx.andThen fun a => overlooks_pure (f a)

end Run

/-! ## Calls on a cursor -/

section Alike

variable {μ ν : Type} {C : Type 1} {P : C → Prop}

/-- How a call comes back in a world and in the one that `g` makes of it, with what was called in
the same state, of which `P` holds. -/
inductive Alike (g : W → W) (P : C → Prop) : Option (μ × C × W) → Option (μ × C × W) → Prop
  | exhausted : Alike g P none none
  | back {r : μ} {c : C} {w : W} (hc : P c) : Alike g P (some (r, c, w)) (some (r, c, g w))

theorem Alike.map (f : μ → ν) {x y : Option (μ × C × W)} (h : Alike g P x y) :
    Alike g P (x.map fun (r, c, w) => (f r, c, w)) (y.map fun (r, c, w) => (f r, c, w)) := by
  cases h with
  | exhausted => exact .exhausted
  | back hc => exact .back hc

theorem Alike.eq_map {x y : Option (μ × C × W)} (h : Alike g P x y) :
    y = x.map (carry (carry g)) := by
  cases h <;> rfl

theorem Alike.keeps {x y : Option (μ × C × W)} (h : Alike g P x y) {r : μ} {c : C} {w : W}
    (hx : x = some (r, c, w)) : P c := by
  cases h with
  | exhausted => cases hx
  | back hc =>
    cases hx
    exact hc

end Alike

namespace Cursor

def DrivesAlike (g : W → W) (use : Cursor W α → W → Option (Except Panic ρ × Cursor W α × W)) :
    Prop :=
  ∀ {c}, c.Overlooks g → ∀ w, Alike g (Overlooks g) (use c w) (use c (g w))

theorem drivesAlike_step (fuel : Nat) : DrivesAlike g (step fuel : Cursor W α → W → _) := by
  induction fuel with
  | zero => exact fun _ _ => .exhausted
  | succ fuel ih =>
    intro c hc w
    rw [step, step, hc.unaware.tick w]
    rcases ht : c.tick w with ⟨_ | a | _ | p, d, v⟩ <;> have hd := (becomes_of_tick ht).overlooks hc
    · exact ih hd v
    all_goals exact .back hd

theorem drivesAlike_advanceBy (fuel n : Nat) :
    DrivesAlike g (advanceBy fuel n : Cursor W α → W → _) := by
  induction fuel generalizing n with
  | zero => exact fun _ _ => .exhausted
  | succ fuel ih =>
    intro c hc w
    rw [advanceBy, advanceBy, hc.unaware.skip n w]
    rcases hs : c.skip n w with ⟨m | b | p, d, v⟩ <;> have hd := (becomes_of_skip hs).overlooks hc
    · exact ih m hd v
    all_goals exact .back hd

theorem drivesAlike_next (fuel : Nat) : DrivesAlike g (next fuel : Cursor W α → W → _) :=
  fun hc w => (drivesAlike_step fuel hc w).map _

theorem drivesAlike_nth (fuel n : Nat) : DrivesAlike g (nth fuel n : Cursor W α → W → _) := by
  intro c hc w
  have ha := drivesAlike_advanceBy fuel n hc w
  unfold nth
  generalize c.advanceBy fuel n w = x at ha ⊢
  generalize c.advanceBy fuel n (g w) = y at ha ⊢
  cases ha with
  | exhausted => exact .exhausted
  | @back r d v hd =>
    rcases r with p | _ | _
    · exact .back hd
    · exact .back hd
    · exact drivesAlike_next fuel hd v

theorem drivesAlike_consume {visit : β → α → Run W (Verdict β ρ)}
    (hv : ∀ b a, (visit b a).Overlooks g) (finish : β → ρ) (fuel : Nat) (b : β) :
    DrivesAlike g (consume visit finish fuel b) := by
  induction fuel generalizing b with
  | zero => exact fun _ _ => .exhausted
  | succ fuel ih =>
    intro c hc w
    rw [consume, consume, hc.unaware.tick w]
    rcases ht : c.tick w with ⟨_ | a | _ | p, d, v⟩ <;> have hd := (becomes_of_tick ht).overlooks hc
    · exact ih b hd v
    · simp only [carry_mk, hv b a v]
      rcases visit b a v with _ | ⟨_ | ⟨b' | r⟩, v'⟩
      · exact .exhausted
      · exact .back hd
      · exact ih b' hd v'
      · exact .back hd
    · exact .back hd
    · exact .back hd

theorem drivesAlike_rest {write : α → Run W β} (hw : ∀ a, (write a).Overlooks g) (fuel : Nat) :
    DrivesAlike g (rest fuel write) :=
  drivesAlike_consume (fun _ a => (hw a).answer _) id fuel #[]

theorem overlooks_increment (most : Option Nat) (i : Nat) :
    (increment most i : Act W Nat).Overlooks g := by
  unfold increment
  split
  · split
    · exact Act.overlooks_done _
    · exact Act.overlooks_fail _
  · exact Act.overlooks_done _

section Searching

variable {same : α → Act W Bool} (hs : ∀ a, (same a).Overlooks g)

include hs

theorem drivesAlike_positionFrom (most : Option Nat) (fuel i : Nat) :
    DrivesAlike g (positionFrom most fuel same i) :=
  drivesAlike_consume (fun i a => Run.overlooks_ofAct ((hs a).andThen fun _ =>
    (overlooks_increment most i).andThen fun _ => Act.overlooks_done _)) _ fuel i

theorem drivesAlike_search (most : Option Nat) (fuel start : Nat) :
    DrivesAlike g (search most fuel same start) := by
  intro c hc w
  cases start with
  | zero => exact drivesAlike_positionFrom hs most fuel 0 hc w
  | succ before =>
    have ha := drivesAlike_nth fuel before hc w
    simp only [search]
    generalize c.nth fuel before w = x at ha ⊢
    generalize c.nth fuel before (g w) = y at ha ⊢
    cases ha with
    | exhausted => exact .exhausted
    | @back r d v hd =>
      rcases r with p | _ | b
      · exact .back hd
      · exact .back hd
      · simp only [overlooks_increment most before v]
        rcases increment most before v with ⟨p | i, t⟩
        · exact .back hd
        · exact drivesAlike_positionFrom hs most fuel i hd t

end Searching

theorem drivesAlike_pair (fuel : Nat) : DrivesAlike g (pair fuel : Cursor W α → W → _) := by
  intro c hc w
  have ha := drivesAlike_next fuel hc w
  unfold pair
  generalize c.next fuel w = x at ha ⊢
  generalize c.next fuel (g w) = y at ha ⊢
  cases ha with
  | exhausted => exact .exhausted
  | @back r d v hd =>
    cases r with
    | error p => exact .back hd
    | ok a => exact (drivesAlike_next fuel hd v).map _

end Cursor

/-! ## Consuming operations -/

namespace Stream

open Cursor Run

variable {s : Stream W α}

theorem Overlooks.session (hs : s.Overlooks g)
    {use : Cursor W α → W → Option (Except Panic ρ × Cursor W α × W)} (hu : DrivesAlike g use) :
    (s.session use).Overlooks g := by
  intro w
  simp only [Stream.session, hs.cursor w]
  rcases ho : s.cursor w with ⟨p | c, v⟩
  · rfl
  · have ha := hu (hs.opened ho) v
    simp only [carry_mk]
    generalize use c v = x at ha ⊢
    generalize use c (g v) = y at ha ⊢
    cases ha <;> rfl

theorem Overlooks.consume (hs : s.Overlooks g) {visit : β → α → Run W (Verdict β ρ)}
    (hv : ∀ b a, (visit b a).Overlooks g) (fuel : Nat) (finish : β → ρ) (b : β) :
    (s.consume fuel visit finish b).Overlooks g :=
  hs.session (drivesAlike_consume hv finish fuel b)

theorem Overlooks.fold (hs : s.Overlooks g) {f : β → α → Act W β}
    (hf : ∀ b a, (f b a).Overlooks g) (fuel : Nat) (b : β) : (s.fold fuel f b).Overlooks g :=
  hs.consume (fun b a => overlooks_ofAct ((hf b a).andThen fun _ => Act.overlooks_done _)) fuel id b

theorem Overlooks.toArray (hs : s.Overlooks g) (fuel : Nat) : (s.toArray fuel).Overlooks g :=
  hs.fold (fun _ _ => Act.overlooks_done _) fuel #[]

theorem Overlooks.traverse (hs : s.Overlooks g) {f : α → Run W β} (hf : ∀ a, (f a).Overlooks g)
    (fuel : Nat) : (s.traverse fuel f).Overlooks g :=
  hs.session (drivesAlike_rest hf fuel)

theorem Overlooks.take (hs : s.Overlooks g) {write : α → Run W β}
    (hw : ∀ a, (write a).Overlooks g) (fuel n : Nat) : (s.take fuel n write).Overlooks g := by
  apply hs.session
  intro c hc w
  dsimp only
  split
  · exact .back hc
  · exact drivesAlike_consume (fun _ a => (hw a).answer _) id fuel #[] hc w

theorem Overlooks.count (hs : s.Overlooks g) (fuel : Nat) : (s.count fuel).Overlooks g :=
  hs.fold (fun _ _ => Act.overlooks_done _) fuel 0

theorem Overlooks.forEach (hs : s.Overlooks g) {f : α → Act W Unit}
    (hf : ∀ a, (f a).Overlooks g) (fuel : Nat) : (s.forEach fuel f).Overlooks g :=
  hs.fold (fun _ a => hf a) fuel ()

theorem Overlooks.tryForEach (hs : s.Overlooks g) {f : α → Act W (Except ε Unit)}
    (hf : ∀ a, (f a).Overlooks g) (fuel : Nat) : (s.tryForEach fuel f).Overlooks g := by
  refine hs.consume (fun _ a => overlooks_ofAct ((hf a).andThen fun r => ?_)) fuel _ ()
  cases r <;> exact Act.overlooks_done _

theorem Overlooks.reduceWith (hs : s.Overlooks g) {combine : β → α → Act W β}
    (hf : ∀ b a, (combine b a).Overlooks g) (fuel : Nat) (init : β) :
    (s.reduceWith fuel init combine).Overlooks g :=
  hs.fold hf fuel init

theorem Overlooks.reduce (hs : s.Overlooks g) {combine : α → α → Act W α}
    (hf : ∀ b a, (combine b a).Overlooks g) (fuel : Nat) : (s.reduce fuel combine).Overlooks g := by
  refine hs.fold (fun b a => ?_) fuel none
  cases b with
  | none => exact Act.overlooks_done _
  | some b => exact (hf b a).andThen fun _ => Act.overlooks_done _

theorem Overlooks.tryReduceWith (hs : s.Overlooks g) {combine : β → α → Act W (Except ε β)}
    (hf : ∀ b a, (combine b a).Overlooks g) (fuel : Nat) (init : β) :
    (s.tryReduceWith fuel init combine).Overlooks g := by
  refine hs.consume (fun b a => overlooks_ofAct ((hf b a).andThen fun r => ?_)) fuel _ init
  cases r <;> exact Act.overlooks_done _

theorem overlooks_foldList {combine : β → α → Act W β} (hf : ∀ b a, (combine b a).Overlooks g)
    (xs : List α) (b : β) : (foldList combine xs b).Overlooks g := by
  induction xs generalizing b with
  | nil => exact Act.overlooks_done b
  | cons a rest ih => exact (hf b a).andThen ih

theorem Overlooks.reduceRightWith (hs : s.Overlooks g) {combine : β → α → Act W β}
    (hf : ∀ b a, (combine b a).Overlooks g) (fuel : Nat) (init : β) :
    (s.reduceRightWith fuel init combine).Overlooks g :=
  (hs.toArray fuel).andThen fun xs => overlooks_ofAct (overlooks_foldList hf xs.toList.reverse init)

theorem Overlooks.reduceRight (hs : s.Overlooks g) {combine : α → α → Act W α}
    (hf : ∀ b a, (combine b a).Overlooks g) (fuel : Nat) :
    (s.reduceRight fuel combine).Overlooks g := by
  refine (hs.toArray fuel).andThen fun xs => overlooks_ofAct ?_
  cases xs.toList.reverse with
  | nil => exact Act.overlooks_done _
  | cons a rest => exact (overlooks_foldList hf rest a).andThen fun _ => Act.overlooks_done _

section Searching

variable {p : α → Act W Bool}

theorem Overlooks.find (hs : s.Overlooks g) (hp : ∀ a, (p a).Overlooks g) (fuel : Nat) :
    (s.find fuel p).Overlooks g :=
  hs.consume (fun _ a => overlooks_ofAct ((hp a).andThen fun _ => Act.overlooks_done _)) fuel _ ()

theorem Overlooks.some? (hs : s.Overlooks g) (hp : ∀ a, (p a).Overlooks g) (fuel : Nat) :
    (s.some? fuel p).Overlooks g :=
  hs.consume (fun _ a => overlooks_ofAct ((hp a).andThen fun _ => Act.overlooks_done _)) fuel _ ()

theorem Overlooks.every? (hs : s.Overlooks g) (hp : ∀ a, (p a).Overlooks g) (fuel : Nat) :
    (s.every? fuel p).Overlooks g :=
  hs.consume (fun _ a => overlooks_ofAct ((hp a).andThen fun _ => Act.overlooks_done _)) fuel _ ()

theorem Overlooks.findIndex (hs : s.Overlooks g) (hp : ∀ a, (p a).Overlooks g) (fuel : Nat) :
    (s.findIndex fuel p).Overlooks g :=
  hs.consume (fun _ a => overlooks_ofAct ((hp a).andThen fun _ => Act.overlooks_done _)) fuel _ 0

end Searching

section Comparing

variable {eq : α → α → Act W Bool}

theorem Overlooks.includes (hs : s.Overlooks g) (he : ∀ a b, (eq a b).Overlooks g) (fuel : Nat)
    (a : α) : (s.includes fuel eq a).Overlooks g :=
  hs.some? (fun b => he b a) fuel

theorem Overlooks.indexOf (hs : s.Overlooks g) (he : ∀ a b, (eq a b).Overlooks g)
    (most : Option Nat) (fuel : Nat) (a : α) (start : Nat) :
    (s.indexOf most fuel eq a start).Overlooks g :=
  hs.session (drivesAlike_search (fun b => he b a) most fuel start)

end Comparing

theorem Overlooks.head (hs : s.Overlooks g) (fuel : Nat) : (s.head fuel).Overlooks g :=
  hs.session (drivesAlike_next fuel)

theorem Overlooks.isEmpty (hs : s.Overlooks g) (fuel : Nat) : (s.isEmpty fuel).Overlooks g := by
  unfold Stream.isEmpty
  split
  · exact overlooks_pure true
  · exact (hs.head fuel).answer _

theorem Overlooks.option (hs : s.Overlooks g) (fuel : Nat) : (s.option fuel).Overlooks g :=
  (hs.session (drivesAlike_pair fuel)).answer _

theorem Overlooks.one (hs : s.Overlooks g) (fuel : Nat) : (s.one fuel).Overlooks g :=
  (hs.session (drivesAlike_pair fuel)).answer _

theorem Overlooks.toSet [DecidableEq α] (hs : s.Overlooks g) (fuel : Nat) :
    (s.toSet fuel).Overlooks g :=
  hs.fold (fun _ _ => Act.overlooks_done _) fuel []

theorem Overlooks.toMap [DecidableEq κ] (hs : s.Overlooks g) {key : α → Act W κ}
    {value : α → Act W β} (hk : ∀ a, (key a).Overlooks g) (hv : ∀ a, (value a).Overlooks g)
    (fuel : Nat) : (s.toMap fuel key value).Overlooks g :=
  hs.fold (fun _ a => (hk a).andThen fun _ => (hv a).andThen fun _ => Act.overlooks_done _) fuel []

theorem Overlooks.join (hs : s.Overlooks g) {text : α → Run W String}
    (ht : ∀ a, (text a).Overlooks g) (fuel : Nat) (separator : String) :
    (s.join fuel text separator).Overlooks g :=
  hs.consume (fun _ a => (ht a).answer _) fuel _ none

theorem Overlooks.innerText (hs : s.Overlooks g) {text : α → Run W String}
    (ht : ∀ a, (text a).Overlooks g) (fuel : Nat) : (s.innerText fuel text).Overlooks g :=
  hs.join ht fuel ","

end Stream

theorem Nested.overlooks_text {book : ι → Stream W (Nested ι α)} (hb : ∀ i, (book i).Overlooks g)
    (text : α → String) (fuel : Nat) (x : Nested ι α) :
    (Nested.text book text fuel x).Overlooks g := by
  induction fuel generalizing x with
  | zero =>
    cases x with
    | value a => exact Run.overlooks_pure _
    | stream i => exact Run.overlooks_exhausted
  | succ fuel ih =>
    cases x with
    | value a => exact Run.overlooks_pure _
    | stream i => exact (hb i).innerText ih fuel

end PullStream
