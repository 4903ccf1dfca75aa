import PullStream.Proofs.Independence.Expression
import PullStream.Proofs.Independence.History
import PullStream.Script.Session

/-!
# Sessions of a script do not influence each other

Sinks and the calls on a cursor that do without the counter share nothing with the rest of a session.
What they report is therefore the same in all histories: which streams and cursors there are besides,
what was done with them, in which order, and what panicked, is of no account.
-/

set_option autoImplicit false

namespace PullStream.Script

variable {g : World → World} {α : Type}

/-! ## Sinks -/

structure Element.Overlooks (g : World → World) (e : Element α) : Prop where
  write : ∀ fuel a, (e.write fuel a).Overlooks g
  text : ∀ fuel a, (e.text fuel a).Overlooks g

namespace Element

variable {ι : Type}

theorem overlooks_value : value.Overlooks g :=
  ⟨fun _ _ => Run.overlooks_pure _, fun _ _ => Run.overlooks_pure _⟩

theorem overlooks_option : option.Overlooks g :=
  ⟨fun _ _ => Run.overlooks_pure _, fun _ _ => Run.overlooks_pure _⟩

theorem overlooks_stream {book : ι → Stream World Value} (hb : ∀ i, (book i).Overlooks g) :
    (stream book).Overlooks g where
  write fuel i := ((hb i).traverse (overlooks_value.write fuel) fuel).answer _
  text fuel i := (hb i).innerText (overlooks_value.text fuel) fuel

theorem overlooks_writeNested {book : ι → Stream World (Nested ι Value)}
    (hb : ∀ i, (book i).Overlooks g) (fuel : Nat) (x : Nested ι Value) :
    (writeNested book fuel x).Overlooks g := by
  induction fuel generalizing x with
  | zero =>
    cases x with
    | value v => exact Run.overlooks_pure _
    | stream i => exact Run.overlooks_exhausted
  | succ fuel ih =>
    cases x with
    | value v => exact Run.overlooks_pure _
    | stream i => exact ((hb i).traverse ih fuel).answer _

theorem overlooks_nested {book : ι → Stream World (Nested ι Value)}
    (hb : ∀ i, (book i).Overlooks g) : (nested book).Overlooks g :=
  ⟨overlooks_writeNested hb, Nested.overlooks_text hb Value.write⟩

end Element

namespace Sink

/-- The callbacks of the operation do not use the counter. -/
def uncounted : Sink → Bool
  | toMap key value => key.uncounted && value.uncounted
  | forEach f => f.uncounted
  | tryForEach p => p.uncounted
  | tryReduceWith _ p _ => p.uncounted
  | find p => p.uncounted
  | findIndex p => p.uncounted
  | every p => p.uncounted
  | some p => p.uncounted
  | _ => true

theorem overlooks_badSink : (badSink : Run World Answer).Overlooks g :=
  Run.overlooks_ofAct (Act.overlooks_fail _)

theorem overlooks_writeAll {write : α → Run World Answer} (hw : ∀ a, (write a).Overlooks g)
    (xs : List α) : (writeAll write xs).Overlooks g := by
  induction xs with
  | nil => exact Run.overlooks_pure _
  | cons a rest ih => exact (hw a).andThen fun _ => ih.answer _

theorem overlooks_writeOption {write : α → Run World Answer} (hw : ∀ a, (write a).Overlooks g)
    (x : Option α) : (writeOption write x).Overlooks g := by
  cases x with
  | none => exact Run.overlooks_pure _
  | some a => exact (hw a).answer _

theorem overlooks_runOn {e : Element α} (he : e.Overlooks g) {s : Stream World α}
    (hs : s.Overlooks g) (fuel : Nat) (k : Sink) : (k.runOn fuel e s).Overlooks g := by
  cases k with
  | toArray => exact (hs.toArray fuel).andThen fun _ =>
      (overlooks_writeAll (he.write fuel) _).answer _
  | «for» => exact (hs.traverse (he.write fuel) fuel).answer _
  | take n => exact (hs.take (he.write fuel) fuel n).answer _
  | count => exact (hs.count fuel).answer _
  | isEmpty => exact (hs.isEmpty fuel).answer _
  | head => exact (hs.head fuel).andThen (overlooks_writeOption (he.write fuel))
  | one =>
    refine (hs.one fuel).andThen fun r => ?_
    cases r with
    | ok a => exact (he.write fuel a).answer _
    | error err => exact Run.overlooks_pure _
  | option =>
    refine (hs.option fuel).andThen fun r => ?_
    cases r with
    | ok a => exact (overlooks_writeOption (he.write fuel) a).answer _
    | error err => exact Run.overlooks_pure _
  | join separator => exact (hs.join (he.text fuel) fuel separator).answer _
  | debug => exact Run.overlooks_pure _
  | _ => exact overlooks_badSink

section Callbacks

variable {before : Int64 × List Event}

theorem overlooks_runOnValues {s : Stream World Value} (hs : s.Overlooks (past World.view before))
    (fuel : Nat) {k : Sink} (hk : k.uncounted = true) :
    (k.runOnValues fuel s).Overlooks (past World.view before) := by
  cases k with
  | toSet => exact (hs.toSet fuel).answer _
  | toMap key value =>
    rw [uncounted, Bool.and_eq_true] at hk
    exact (hs.toMap (Fn.overlooks_run hk.1) (Fn.overlooks_run hk.2) fuel).answer _
  | forEach f =>
    exact (hs.forEach (fun x => (Fn.overlooks_run hk x).bind fun _ => Act.overlooks_done _)
      fuel).answer _
  | tryForEach p =>
    refine (hs.tryForEach (fun x => (World.overlooks_note _).bind fun _ =>
      (Pred.overlooks_run hk x).bind fun b => ?_) fuel).answer _
    cases b <;> exact Act.overlooks_done _
  | reduce c => exact (hs.reduce c.overlooks_run fuel).answer _
  | reduceRight c => exact (hs.reduceRight c.overlooks_run fuel).answer _
  | reduceWith init c => exact (hs.reduceWith c.overlooks_run fuel init).answer _
  | reduceRightWith init c => exact (hs.reduceRightWith c.overlooks_run fuel init).answer _
  | tryReduceWith init p c =>
    refine (hs.tryReduceWith (fun a b => (Pred.overlooks_run hk b).bind fun r => ?_)
      fuel init).answer _
    cases r
    · exact (c.overlooks_run a b).bind fun _ => Act.overlooks_done _
    · exact Act.overlooks_done _
  | find p => exact (hs.find (Pred.overlooks_run hk) fuel).answer _
  | findIndex p => exact (hs.findIndex (Pred.overlooks_run hk) fuel).answer _
  | indexOf v start =>
    exact (hs.indexOf (fun _ _ => Act.overlooks_done _) _ fuel v start).answer _
  | includes v => exact (hs.includes (fun _ _ => Act.overlooks_done _) fuel v).answer _
  | every p => exact (hs.every? (Pred.overlooks_run hk) fuel).answer _
  | some p => exact (hs.some? (Pred.overlooks_run hk) fuel).answer _
  | _ =>
    simp only [runOnValues]
    exact overlooks_runOn Element.overlooks_value hs fuel _

theorem overlooks_runOnNested {s : NestedStream} (hs : s.Overlooks g) (fuel : Nat) (k : Sink) :
    (k.runOnNested fuel s).Overlooks g := by
  cases k with
  | kinds => exact (hs.stream.traverse (fun _ => Run.overlooks_pure _) fuel).answer _
  | debugAll => exact (hs.stream.traverse (fun _ => Run.overlooks_pure _) fuel).answer _
  | _ =>
    simp only [runOnNested]
    exact overlooks_runOn (Element.overlooks_nested hs.book) hs.stream fuel _

theorem overlooks_run {b : Built} (hb : b.Overlooks (past World.view before)) (fuel : Nat) {k : Sink}
    (hk : k.uncounted = true) : (k.run fuel b).Overlooks (past World.view before) := by
  cases b with
  | values s => exact overlooks_runOnValues hb fuel hk
  | nested s => exact overlooks_runOnNested hb fuel k
  | streams s => exact overlooks_runOn (Element.overlooks_stream hb.book) hb.stream fuel k
  | options s => exact overlooks_runOn Element.overlooks_option hb fuel k

end Callbacks

end Sink

/-! ## Cursors -/

namespace Handle

structure Overlooks (g : World → World) (h : Handle) : Prop where
  element : h.element.Overlooks g
  cursor : h.cursor.Overlooks g

theorem overlooks_ofBuilt {b : Built} (hb : b.Overlooks g) : (ofBuilt b).Overlooks g := by
  cases b with
  | values | options => exact (Stream.Overlooks.cursor hb).andThen fun _ => Act.overlooks_done _
  | nested | streams => exact hb.stream.cursor.andThen fun _ => Act.overlooks_done _

theorem overlooks_opened {b : Built} (hb : b.Overlooks g) {h : Handle} {w w' : World}
    (ho : ofBuilt b w = (.ok h, w')) : h.Overlooks g := by
  cases b with
  | values s =>
    obtain ⟨c, v, hc, hh⟩ := Act.andThen_ok ho
    cases hh
    exact ⟨Element.overlooks_value, Stream.Overlooks.opened hb hc⟩
  | nested s =>
    obtain ⟨c, v, hc, hh⟩ := Act.andThen_ok ho
    cases hh
    exact ⟨Element.overlooks_nested hb.book, hb.stream.opened hc⟩
  | streams s =>
    obtain ⟨c, v, hc, hh⟩ := Act.andThen_ok ho
    cases hh
    exact ⟨Element.overlooks_stream hb.book, hb.stream.opened hc⟩
  | options s =>
    obtain ⟨c, v, hc, hh⟩ := Act.andThen_ok ho
    cases hh
    exact ⟨Element.overlooks_option, Stream.Overlooks.opened hb hc⟩

theorem alike_written {ρ : Type} {h : Handle} (hh : h.Overlooks g) {write : ρ → Run World α}
    (hw : ∀ r, (write r).Overlooks g) {x y : Option (Except Panic ρ × Cursor World h.Item × World)}
    (hx : Alike g (Cursor.Overlooks g) x y) :
    Alike g (Overlooks g) (h.written write x) (h.written write y) := by
  cases hx with
  | exhausted => exact .exhausted
  | @back r c w hc =>
    cases r with
    | error p => exact .back ⟨hh.element, hc⟩
    | ok r =>
      simp only [written, hw r w]
      rcases write r w with _ | ⟨a, v⟩
      · exact .exhausted
      · exact .back ⟨hh.element, hc⟩

theorem overlooks_writeStep {write : α → Run World Answer} (hw : ∀ a, (write a).Overlooks g)
    (x : Step α) : (writeStep write x).Overlooks g := by
  cases x with
  | yield a => exact (hw a).answer _
  | done => exact Run.overlooks_pure _

theorem Overlooks.call {h : Handle} (hh : h.Overlooks g) (fuel : Nat) (w : World) (c : Call) :
    Alike g (Overlooks g) (h.call fuel w c) (h.call fuel (g w) c) := by
  have hw := hh.element.write fuel
  cases c with
  | step =>
    exact alike_written hh (overlooks_writeStep hw) (Cursor.drivesAlike_step fuel hh.cursor w)
  | advanceBy n =>
    exact alike_written hh (fun _ => Run.overlooks_pure _)
      (Cursor.drivesAlike_advanceBy fuel n hh.cursor w)
  | next =>
    exact alike_written hh (Sink.overlooks_writeOption hw)
      (Cursor.drivesAlike_next fuel hh.cursor w)
  | nth n =>
    exact alike_written hh (Sink.overlooks_writeOption hw)
      (Cursor.drivesAlike_nth fuel n hh.cursor w)
  | rest =>
    exact alike_written hh (fun _ => Run.overlooks_pure _)
      (Cursor.drivesAlike_rest hw fuel hh.cursor w)

/-- A call on a cursor that does without the counter comes back alike wherever it is made. -/
theorem solitary_call (fuel : Nat) {h : Handle}
    (hh : ∀ before, h.Overlooks (past World.view before)) (c : Call) :
    Solitary World.view (fun d : Handle => ∀ before, d.Overlooks (past World.view before))
      fun w => h.call fuel w c :=
  .of_alike fun before w => (hh before).call fuel w c

end Handle

/-! ## Sessions -/

/-- The action neither opens a cursor by the name `own` nor calls the one that has it. -/
def Action.Spares (own : String) : Action → Prop
  | .opened name _ => name ≠ own
  | .call name _ => name ≠ own
  | _ => True

def Report.entries (r : Report) : Except Panic Answer × List Event := (r.outcome, r.log.toList)

theorem Report.eq_of_entries : ∀ {r r' : Report}, r.entries = r'.entries → r = r'
  | ⟨_, _⟩, ⟨_, _⟩, h => by
    simp only [entries, Prod.mk.injEq, Array.toList_inj] at h
    rw [h.1, h.2]

namespace Session

/-- What a guarded step reports, if it comes back. -/
def reported (fuel : Nat) (s : Session) (a : Action) : Option Report :=
  (s.perform fuel a).map Prod.fst

/-- A stretch of a session in which the cursor `own` is called and answers. Between the calls
anything else may happen in the session, on any amount of fuel. -/
inductive Driven (fuel : Nat) (own : String) :
    Session → List Handle.Call → List Report → Session → Prop
  | rest (s : Session) : Driven fuel own s [] [] s
  | meanwhile {s t u : Session} {calls : List Handle.Call} {reports : List Report} {k : Nat}
      {a : Action} {r : Report} (ha : a.Spares own) (hp : s.perform k a = some (r, t))
      (h : Driven fuel own t calls reports u) : Driven fuel own s calls reports u
  | call {s t u : Session} {c : Handle.Call} {calls : List Handle.Call} {r : Report}
      {reports : List Report} (hp : s.perform fuel (.call own c) = some (r, t))
      (h : Driven fuel own t calls reports u) : Driven fuel own s (c :: calls) (r :: reports) u

@[simp] theorem stream?_quiet (s : Session) (name : String) :
    s.quiet.stream? name = s.stream? name := rfl

@[simp] theorem handle?_quiet (s : Session) (name : String) :
    s.quiet.handle? name = s.handle? name := rfl

variable {s t u : Session} {own stream : String} {b : Built} {h : Handle} {fuel : Nat}

theorem reported_sink {k : Sink} {report : Option (Except Panic Answer × List Event)}
    (hk : ∀ w, k.run fuel b w = report.map fun (r, es) => (r, logged World.view es w))
    (hs : s.stream? stream = some b) :
    s.reported fuel (.sink stream k) = report.map fun (r, es) => ⟨r, es.toArray⟩ := by
  simp only [reported, perform, sink, stream?_quiet, hs, hk]
  cases report <;> rfl

theorem reported_opened {r : Except Panic Handle} {es : List Event}
    (ho : ∀ w, Handle.ofBuilt b w = (r, logged World.view es w)) (hs : s.stream? stream = some b) :
    s.reported fuel (.opened own stream) = some ⟨r.map fun _ => .unit, es.toArray⟩ := by
  simp only [reported, perform, openHandle, stream?_quiet, hs, ho]
  cases r <;> rfl

/-- The cursor that an opening brings into the session is the one that it brings anywhere. -/
theorem handle_opened {r : Except Panic Handle} {es : List Event}
    (ho : ∀ w, Handle.ofBuilt b w = (r, logged World.view es w)) (hs : s.stream? stream = some b)
    {log : Array Event} (hp : s.perform fuel (.opened own stream) = some (⟨.ok .unit, log⟩, t)) :
    ∃ h, r = .ok h ∧ t.handle? own = some h := by
  simp only [perform, openHandle, stream?_quiet, hs, ho] at hp
  cases r with
  | error p => cases hp
  | ok h =>
    cases hp
    exact ⟨h, rfl, List.lookup_cons_self⟩

theorem reported_call (hh : ∀ before, h.Overlooks (past World.view before)) (c : Handle.Call)
    (hs : s.handle? own = some h) (ht : t.handle? own = some h) :
    s.reported fuel (.call own c) = t.reported fuel (.call own c) := by
  simp only [reported, perform, call, handle?_quiet, hs, ht]
  cases Handle.solitary_call fuel hh c with
  | exhausted hc => simp only [hc]
  | back _ hc =>
    simp only [hc]
    rfl

theorem lookup_cons_ne {ρ : Type 1} {name : String} (h : name ≠ own) (x : ρ)
    (xs : List (String × ρ)) : ((name, x) :: xs).lookup own = xs.lookup own := by
  simp only [List.lookup_cons, beq_false_of_ne h.symm]

theorem handle_spared {k : Nat} {a : Action} {r : Report} (ha : a.Spares own)
    (hp : s.perform k a = some (r, t)) : t.handle? own = s.handle? own := by
  cases a with
  | define name e =>
    simp only [perform, define] at hp
    split at hp <;> cases hp <;> rfl
  | opened name stream =>
    simp only [perform, openHandle] at hp
    split at hp
    · cases hp
      rfl
    · split at hp <;> cases hp
      · exact lookup_cons_ne ha _ _
      · rfl
  | sink stream k =>
    simp only [perform, sink] at hp
    split at hp
    · cases hp
      rfl
    · split at hp <;> cases hp
      rfl
  | call name c =>
    simp only [perform, call] at hp
    split at hp
    · cases hp
      rfl
    · split at hp <;> cases hp
      exact lookup_cons_ne ha _ _

/-- For a cursor that is called in a session, all else that happens is a change of the world. -/
theorem Driven.told {calls : List Handle.Call} {reports : List Report}
    (hd : Driven fuel own s calls reports t) (hs : s.handle? own = some h) :
    ∃ history d, requests history = calls ∧ t.handle? own = some d ∧
      told World.view (Handle.call fuel) h s.world history =
        some (reports.map Report.entries, d) := by
  induction hd generalizing h with
  | rest s => exact ⟨[], h, rfl, hs, rfl⟩
  | @meanwhile s t u calls reports k a r ha hp _ ih =>
    obtain ⟨history, d, hq, hu, ht⟩ := ih ((handle_spared ha hp).trans hs)
    exact ⟨.meanwhile (fun _ => t.world) :: history, d, hq, hu, ht⟩
  | @call s t u c calls r reports hp _ ih =>
    simp only [perform, Session.call, handle?_quiet, hs] at hp
    rcases hx : h.call fuel s.quiet.world c with _ | ⟨a, d, w⟩ <;> rw [hx] at hp
    · cases hp
    · cases hp
      obtain ⟨history, e, hq, hu, ht⟩ := ih List.lookup_cons_self
      refine ⟨.meanwhile (fun _ => s.quiet.world) :: .asked c :: history, e,
        congrArg (c :: ·) hq, hu, ?_⟩
      rw [PullStream.told, PullStream.told, hx]
      exact congrArg (Option.map _) ht

end Session

/-- What one does with an uncounted stream in two histories is reported alike: a sink that does
without the counter, the opening of a cursor, and the calls on the cursor that was opened, whatever
happens between them. -/
theorem sessions_independent {b : Built} (hb : b.Uncounted) {s₁ s₂ : Session} {stream : String}
    (h₁ : s₁.stream? stream = some b) (h₂ : s₂.stream? stream = some b) (fuel : Nat) :
    (∀ k : Sink, k.uncounted = true →
      s₁.reported fuel (.sink stream k) = s₂.reported fuel (.sink stream k)) ∧
    ∀ own,
      s₁.reported fuel (.opened own stream) = s₂.reported fuel (.opened own stream) ∧
      ∀ {t₁ t₂ u₁ u₂ : Session} {log₁ log₂ : Array Event} {calls : List Handle.Call}
        {reports₁ reports₂ : List Report},
        s₁.perform fuel (.opened own stream) = some (⟨.ok .unit, log₁⟩, t₁) →
        s₂.perform fuel (.opened own stream) = some (⟨.ok .unit, log₂⟩, t₂) →
        t₁.Driven fuel own calls reports₁ u₁ → t₂.Driven fuel own calls reports₂ u₂ →
        reports₁ = reports₂ ∧
          ∀ c, u₁.reported fuel (.call own c) = u₂.reported fuel (.call own c) := by
  have hv := hb.overlooks
  obtain ⟨r, es, ho⟩ := Act.isolated_iff.mpr fun before => Handle.overlooks_ofBuilt (hv before)
  refine ⟨fun k hk => ?_, fun own => ⟨?_, ?_⟩⟩
  · obtain ⟨report, hr⟩ := Run.isolated_iff.mpr fun before =>
      Sink.overlooks_run (hv before) fuel hk
    rw [Session.reported_sink hr h₁, Session.reported_sink hr h₂]
  · rw [Session.reported_opened ho h₁, Session.reported_opened ho h₂]
  · intro t₁ t₂ u₁ u₂ log₁ log₂ calls reports₁ reports₂ hp₁ hp₂ hd₁ hd₂
    -- both openings bring in the same cursor, which is asked for the same in two histories
    obtain ⟨h, rfl, ht₁⟩ := Session.handle_opened ho h₁ hp₁
    obtain ⟨h', hh', ht₂⟩ := Session.handle_opened ho h₂ hp₂
    cases hh'
    have hh := fun before => Handle.overlooks_opened (hv before) (ho t₁.world)
    obtain ⟨history₁, d, rfl, hu₁, hx₁⟩ := hd₁.told ht₁
    obtain ⟨history₂, d', hq, hu₂, hx₂⟩ := hd₂.told ht₂
    rw [told_alike (Handle.solitary_call fuel) hh hq.symm (v := t₂.world), hx₂] at hx₁
    obtain ⟨hr, rfl⟩ : reports₂.map Report.entries = reports₁.map Report.entries ∧ d' = d := by
      simpa using hx₁
    have hd := told_keeps (Handle.solitary_call fuel) hh hx₂
    exact ⟨((List.map_inj_right fun _ _ => Report.eq_of_entries).mp hr).symm,
      fun c => Session.reported_call hd c hu₁ hu₂⟩

end PullStream.Script
