import PullStream.Proofs.Independence.Combinators
import PullStream.Proofs.Independence.Isolation
import PullStream.Script.Build

/-!
# What a script builds without the counter

The counter is the state that the calls of a script share. The sources of a script, and its callbacks
without a counter, do nothing in their world but write into the log.
-/

set_option autoImplicit false

namespace PullStream.Script

/-! ## Callbacks -/

/-- The counter is what calls share, and the rest of the world is the log. -/
def World.view : World ≃ Int64 × List Event where
  toFun w := (w.counter, w.log.toList)
  invFun p := ⟨p.2.toArray, p.1⟩
  left_inv _ := rfl
  right_inv _ := rfl

mutual

def Fn.uncounted : Fn → Bool
  | .counter => false
  | .seq fs => Fn.allUncounted fs
  | _ => true

def Fn.allUncounted : List Fn → Bool
  | [] => true
  | f :: fs => f.uncounted && Fn.allUncounted fs

end

def Pred.uncounted : Pred → Bool
  | .not q => q.uncounted
  | .tap _ q => q.uncounted
  | .on f q => f.uncounted && q.uncounted
  | _ => true

section Callbacks

variable {before : Int64 × List Event}

theorem World.overlooks_note (e : Event) : (World.note e).Overlooks (past view before) :=
  Act.overlooks_change fun w => by simp [past, view]

theorem World.overlooks_noteIf (wanted : Bool) (e : Event) :
    (World.noteIf wanted e).Overlooks (past view before) := by
  cases wanted
  · exact Act.overlooks_done ()
  · exact overlooks_note e

theorem World.overlooks_noteFor (tag : Option String) (event : String → Event) :
    (World.noteFor tag event).Overlooks (past view before) := by
  cases tag
  · exact Act.overlooks_done ()
  · exact overlooks_note _

mutual

theorem Fn.overlooks_run : {f : Fn} → f.uncounted = true → ∀ x,
    (f.run x).Overlooks (past World.view before)
  | .counter, h, _ => nomatch h
  | .seq fs, h, x => Fn.overlooks_runAll fs h x
  | .tap tag, _, x => (World.overlooks_note (.saw tag x)).bind fun _ => Act.overlooks_done x
  | .panicOn v message, _, x => by
    rw [Fn.run]
    split
    · exact Act.overlooks_fail message
    · exact Act.overlooks_done x
  | .id, _, _ | .add _, _, _ | .mul _, _, _ | .mod _, _, _ | .const _, _, _ | .str, _, _
  | .len, _, _ | .char, _, _ | .item _, _, _ | .wrap, _, _ | .range, _, _ => Act.overlooks_done _

theorem Fn.overlooks_runAll : (fs : List Fn) → Fn.allUncounted fs = true → ∀ x,
    (Fn.runAll fs x).Overlooks (past World.view before)
  | [], _, x => Act.overlooks_done x
  | f :: fs, h, x => by
    rw [Fn.allUncounted, Bool.and_eq_true] at h
    exact (Fn.overlooks_run h.1 x).bind (Fn.overlooks_runAll fs h.2)

end

theorem Pred.overlooks_run {q : Pred} (h : q.uncounted = true) (x : Value) :
    (q.run x).Overlooks (past World.view before) := by
  induction q generalizing x with
  | not q ih => exact (ih h x).bind fun _ => Act.overlooks_done _
  | tap tag q ih => exact (World.overlooks_note (.saw tag x)).bind fun _ => ih h x
  | on f q ih =>
    rw [Pred.uncounted, Bool.and_eq_true] at h
    exact (Fn.overlooks_run h.1 x).bind (ih h.2)
  | _ => exact Act.overlooks_done _

theorem Combine.overlooks_run (c : Combine) (a b : Value) :
    (c.run a b).Overlooks (past World.view before) := by
  refine (World.overlooks_noteFor c.tag _).bind fun _ => ?_
  split
  · exact Act.overlooks_fail _
  · exact Act.overlooks_done _

end Callbacks

/-! ## Kinds of streams -/

structure NestedStream.Overlooks (g : World → World) (s : NestedStream) : Prop where
  book : ∀ i, (s.book i).Overlooks g
  stream : s.stream.Overlooks g

structure StreamOfStreams.Overlooks (g : World → World) (s : StreamOfStreams) : Prop where
  book : ∀ i, (s.book i).Overlooks g
  stream : s.stream.Overlooks g

structure NestingFunction.Overlooks (g : World → World) (f : NestingFunction) : Prop where
  book : ∀ i, (f.book i).Overlooks g
  element : ∀ x, (f.element x).Overlooks g

def Built.Overlooks (g : World → World) : Built → Prop
  | values s => s.Overlooks g
  | nested s => s.Overlooks g
  | streams s => s.Overlooks g
  | options s => s.Overlooks g

section Kinds

variable {g : World → World}

namespace NestedStream

theorem overlooks_empty : empty.Overlooks g := ⟨nofun, trivial⟩

theorem overlooks_ofValues (xs : List Value) : (ofValues xs).Overlooks g :=
  ⟨fun _ => Stream.overlooks_ofArray _, Stream.overlooks_ofArray _⟩

theorem overlooks_ofDepth (k : Int64) : (ofDepth k).Overlooks g :=
  ⟨fun _ => Stream.overlooks_ofList _, Stream.overlooks_ofList _⟩

theorem overlooks_eitherBook {ι κ : Type} {left : ι → Stream World (Nested ι Value)}
    {right : κ → Stream World (Nested κ Value)} (hl : ∀ i, (left i).Overlooks g)
    (hr : ∀ k, (right k).Overlooks g) (i : ι ⊕ κ) : (eitherBook left right i).Overlooks g := by
  cases i with
  | inl i => exact (hl i).rename Sum.inl
  | inr k => exact (hr k).rename Sum.inr

theorem Overlooks.concat {a b : NestedStream} (ha : a.Overlooks g) (hb : b.Overlooks g) :
    (a.concat b).Overlooks g := by
  unfold NestedStream.concat
  split
  · exact hb
  · split
    · exact ha
    · exact ⟨overlooks_eitherBook ha.book hb.book,
        (ha.stream.rename Sum.inl).concat (hb.stream.rename Sum.inr)⟩

end NestedStream

namespace StreamOfStreams

theorem overlooks_empty : empty.Overlooks g := ⟨nofun, trivial⟩

theorem overlooks_ofList {streams : List (Stream World Value)}
    (h : ∀ s ∈ streams, s.Overlooks g) : (ofList streams).Overlooks g := by
  refine ⟨fun (i : Nat) => ?_, Stream.overlooks_ofArray _⟩
  show (streams[i]?.getD .empty).Overlooks g
  rcases hi : streams[i]? with _ | s
  · trivial
  · exact h s (List.mem_of_getElem? hi)

theorem Overlooks.concat {a b : StreamOfStreams} (ha : a.Overlooks g) (hb : b.Overlooks g) :
    (a.concat b).Overlooks g := by
  unfold StreamOfStreams.concat
  split
  · exact hb
  · split
    · exact ha
    · refine ⟨fun i => ?_, (ha.stream.map fun _ => Act.overlooks_done _).concat
        (hb.stream.map fun _ => Act.overlooks_done _)⟩
      cases i with
      | inl i => exact ha.book i
      | inr i => exact hb.book i

end StreamOfStreams

namespace NestingFunction

theorem overlooks_plain : plain.Overlooks g := ⟨nofun, fun _ => Act.overlooks_done _⟩

theorem overlooks_ofLists : ofLists.Overlooks g :=
  ⟨fun _ => Stream.overlooks_ofArray _, fun _ => Act.overlooks_done _⟩

theorem overlooks_ofStreams {f : Value → Stream World Value} (hf : ∀ x, (f x).Overlooks g) :
    (ofStreams f).Overlooks g :=
  ⟨fun x => (hf x).map fun _ => Act.overlooks_done _, fun _ => Act.overlooks_done _⟩

theorem overlooks_choose {p : Pred} (hp : ∀ x, (p.run x).Overlooks g) {yes no : NestingFunction}
    (hy : yes.Overlooks g) (hn : no.Overlooks g) : (choose p yes no).Overlooks g := by
  refine ⟨NestedStream.overlooks_eitherBook hy.book hn.book, fun x => (hp x).bind fun b => ?_⟩
  cases b
  · exact (hn.element x).bind fun _ => Act.overlooks_done _
  · exact (hy.element x).bind fun _ => Act.overlooks_done _

theorem Overlooks.flatMap {f : NestingFunction} (hf : f.Overlooks g) {s : Stream World Value}
    (hs : s.Overlooks g) : (f.flatMap s).Overlooks g :=
  ⟨hf.book, (hs.map hf.element).flat hf.book 1⟩

theorem Overlooks.nest {f : NestingFunction} (hf : f.Overlooks g) {s : Stream World Value}
    (hs : s.Overlooks g) : (f.nest s).Overlooks g :=
  ⟨hf.book, hs.map hf.element⟩

end NestingFunction

/-- Whatever is built, if anything is, has the property. -/
def Gives {ρ : Type 1} (P : ρ → Prop) : Building ρ → Prop
  | .ok a => P a
  | .error _ => True

theorem Gives.map {ρ σ : Type 1} {P : ρ → Prop} {Q : σ → Prop} {x : Building ρ} (hx : Gives P x)
    {f : ρ → σ} (hf : ∀ {a}, P a → Q (f a)) : Gives Q (x.map f) := by
  cases x with
  | ok a => exact hf hx
  | error p => trivial

theorem Gives.bind {ρ σ : Type 1} {P : ρ → Prop} {Q : σ → Prop} {x : Building ρ} (hx : Gives P x)
    {f : ρ → Building σ} (hf : ∀ {a}, P a → Gives Q (f a)) : Gives Q (x.bind f) := by
  cases x with
  | ok a => exact hf hx
  | error p => trivial

namespace Built

variable {b c : Built}

theorem Overlooks.each (hb : b.Overlooks g) {f : {α : Type} → Stream World α → Stream World α}
    (hf : ∀ {α : Type} {s : Stream World α}, s.Overlooks g → (f s).Overlooks g) :
    (b.each f).Overlooks g := by
  cases b with
  | values | options => exact hf hb
  | nested | streams => exact ⟨hb.book, hf hb.stream⟩

theorem Overlooks.values? (hb : b.Overlooks g) : Gives (Stream.Overlooks g) b.values? := by
  unfold Built.values?
  split
  · exact hb
  · split <;> trivial

theorem Overlooks.nested? (hb : b.Overlooks g) : Gives (NestedStream.Overlooks g) b.nested? := by
  unfold Built.nested?
  split
  · exact hb
  · split
    · exact NestedStream.overlooks_empty
    · trivial

theorem Overlooks.streams? (hb : b.Overlooks g) :
    Gives (StreamOfStreams.Overlooks g) b.streams? := by
  unfold Built.streams?
  split
  · exact hb
  · split
    · exact StreamOfStreams.overlooks_empty
    · trivial

theorem Overlooks.options? (hb : b.Overlooks g) : Gives (Stream.Overlooks g) b.options? := by
  unfold Built.options?
  split
  · exact hb
  · split <;> trivial

theorem Overlooks.concat (hb : b.Overlooks g) (hc : c.Overlooks g) :
    Gives (Built.Overlooks g) (b.concat c) := by
  cases b with
  | values s => exact hc.values?.map fun ht => Stream.Overlooks.concat hb ht
  | nested s => exact hc.nested?.map fun ht => NestedStream.Overlooks.concat hb ht
  | streams s => exact hc.streams?.map fun ht => StreamOfStreams.Overlooks.concat hb ht
  | options s => exact hc.options?.map fun ht => Stream.Overlooks.concat hb ht

theorem Overlooks.all {bs : List Built} (hbs : ∀ b ∈ bs, b.Overlooks g) {acc : Built}
    (ha : acc.Overlooks g) : Gives (Built.Overlooks g) (Built.all acc bs) := by
  induction bs generalizing acc with
  | nil => exact ha
  | cons b rest ih =>
    obtain ⟨hb, hrest⟩ := List.forall_mem_cons.mp hbs
    rw [Built.all]
    split
    · exact ih hrest hb
    · have hc := ha.concat hb
      split <;> rename_i h <;> rw [h] at hc
      · exact ih hrest hc
      · trivial

theorem Overlooks.mapValues (hb : b.Overlooks g) {f : Stream World Value → Built}
    (hf : ∀ {s}, s.Overlooks g → (f s).Overlooks g) : Gives (Built.Overlooks g) (b.mapValues f) :=
  hb.values?.map hf

end Built

theorem overlooks_rangeSource (stop : Option Int64) : (rangeSource stop).Overlooks g where
  pull n w := by
    simp only [rangeSource]
    split <;> rfl
  jump _ h := nomatch h

theorem overlooks_counting (start step : Int64) : (counting start step).Overlooks g :=
  ⟨Act.overlooks_done _, fun _ _ => rfl, fun _ h => nomatch h⟩

theorem overlooks_listStream (x : Value) : (listStream x).Overlooks g := by
  cases x with
  | list xs => exact Stream.overlooks_ofArray _
  | _ => exact Stream.overlooks_ofList _

theorem overlooks_rangeStream (x : Value) : (rangeStream x).Overlooks g := by
  cases x with
  | int n => exact ⟨Act.overlooks_done _, overlooks_rangeSource _⟩
  | _ => trivial

end Kinds

section Sources

variable {before : Int64 × List Event}

theorem overlooks_cueSource (jumps : Bool) (tag : Option String) :
    (cueSource jumps tag).Overlooks (past World.view before) where
  pull cues w := by
    simp only [cueSource, World.overlooks_noteFor tag .pull w]
    rcases cues with _ | ⟨_ | _ | _, rest⟩ <;> rfl
  jump jump h k cues w := by
    cases jumps with
    | false => nomatch h
    | true =>
      obtain rfl := Option.some.inj h
      simp only [World.overlooks_noteFor tag (.jump · k) w, carry]

theorem overlooks_scripted (jumps : Bool) (tag : Option String) (cues : List Cue) :
    (scripted jumps tag cues).Overlooks (past World.view before) :=
  ⟨(World.overlooks_noteFor tag .start).bind fun _ => Act.overlooks_done cues,
    overlooks_cueSource jumps tag⟩

variable {ν : Type}

theorem Plant.overlooks_childStream (p : Plant ν) (form : ChildrenForm) (logs : Bool) (a : ν) :
    (p.childStream form logs a).Overlooks (past World.view before) := by
  cases form with
  | vector => exact Stream.overlooks_ofArray _
  | option => exact Stream.overlooks_ofOption _
  | iteration =>
    cases logs
    · exact Stream.overlooks_ofList _
    · refine ⟨(World.overlooks_note _).bind fun _ => Act.overlooks_done _, fun nodes w => ?_,
        fun _ h => nomatch h⟩
      cases nodes with
      | nil => rfl
      | cons n rest => simp only [Plant.childSource, World.overlooks_note _ w, carry]

theorem Plant.overlooks_askChildren (p : Plant ν) (logs : Bool) (panicOn : Option Value) (a : ν) :
    (p.askChildren logs panicOn a).Overlooks (past World.view before) := by
  refine (World.overlooks_noteIf logs _).bind fun _ => ?_
  split
  · exact Act.overlooks_fail _
  · exact Act.overlooks_done _

theorem Plant.overlooks_stream (p : Plant ν) (e : TreeExpr) :
    (p.stream e).stream.Overlooks (past World.view before) :=
  TreeStream.overlooks_stream (p.overlooks_askChildren e.logs e.panicOn)
    (p.overlooks_childStream e.children e.logs)

theorem TreeExpr.overlooks_labels (e : TreeExpr) :
    Built.Overlooks (past World.view before)
      (e.elim fun label t => .values (t.stream.map fun a => pure (label a))) := by
  unfold TreeExpr.elim
  split <;> exact (Plant.overlooks_stream _ e).map fun _ => Act.overlooks_done _

end Sources

end PullStream.Script
