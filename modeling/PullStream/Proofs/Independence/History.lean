import PullStream.Proofs.Cursor.Asking
import PullStream.Proofs.Independence.Consuming
import PullStream.Proofs.Independence.Isolation

/-!
# What went on before goes unnoticed

A session opens a stream that shares nothing and asks the cursor for elements. Whatever else was done
in the world before, or is done between two requests, is a change of the world: other streams and
cursors may be opened, asked and consumed, and panic. Neither the answers and panics nor what is logged
on the way depends on it, and the same goes for the consuming operations.
-/

set_option autoImplicit false

namespace PullStream

variable {W S E α ρ ν ι : Type} {view : W ≃ S × List E}

/-! ## Activities -/

/-- The activity comes to one end and logs the same entries in all worlds, or comes back in none. -/
def Run.Isolated (view : W ≃ S × List E) (x : Run W α) : Prop :=
  ∃ report : Option (Except Panic α × List E), ∀ w,
    x w = report.map fun (r, es) => (r, logged view es w)

theorem Run.isolated_iff {x : Run W α} : x.Isolated view ↔ ∀ p, x.Overlooks (past view p) := by
  constructor
  · rintro ⟨report, hx⟩ p w
    rw [hx, hx]
    cases report with
    | none => rfl
    | some report => simp only [Option.map_some, carry_mk, past_logged]
  · intro h
    rcases isEmpty_or_nonempty W with hw | ⟨⟨w₀⟩⟩
    · exact ⟨none, isEmptyElim⟩
    · refine ⟨(x (unlogged view w₀)).map fun (r, v) => (r, (view v).2), fun w => ?_⟩
      rw [told_unlogged view h w₀ w, Option.map_map]
      rfl

theorem Run.Isolated.overlooks {x : Run W α} (hx : x.Isolated view) (p : S × List E) :
    x.Overlooks (past view p) :=
  isolated_iff.mp hx p

namespace Stream

/-- The consuming operations on the stream are isolated, as long as what they call is. -/
structure ConsumedAlone (view : W ≃ S × List E) (fuel : Nat) (s : Stream W α) : Prop where
  consume {β ρ : Type} {visit : β → α → Run W (Verdict β ρ)} (finish : β → ρ) (b : β) :
    (∀ b a, (visit b a).Isolated view) → (s.consume fuel visit finish b).Isolated view
  toArray : (s.toArray fuel).Isolated view
  traverse {β : Type} {f : α → Run W β} :
    (∀ a, (f a).Isolated view) → (s.traverse fuel f).Isolated view
  take {β : Type} {write : α → Run W β} (n : Nat) :
    (∀ a, (write a).Isolated view) → (s.take fuel n write).Isolated view
  count : (s.count fuel).Isolated view
  forEach {f : α → Act W Unit} :
    (∀ a, (f a).Isolated view) → (s.forEach fuel f).Isolated view
  tryForEach {ε : Type} {f : α → Act W (Except ε Unit)} :
    (∀ a, (f a).Isolated view) → (s.tryForEach fuel f).Isolated view
  reduceWith {β : Type} {combine : β → α → Act W β} (init : β) :
    (∀ b a, (combine b a).Isolated view) → (s.reduceWith fuel init combine).Isolated view
  reduce {combine : α → α → Act W α} :
    (∀ b a, (combine b a).Isolated view) → (s.reduce fuel combine).Isolated view
  tryReduceWith {β ε : Type} {combine : β → α → Act W (Except ε β)} (init : β) :
    (∀ b a, (combine b a).Isolated view) → (s.tryReduceWith fuel init combine).Isolated view
  reduceRightWith {β : Type} {combine : β → α → Act W β} (init : β) :
    (∀ b a, (combine b a).Isolated view) → (s.reduceRightWith fuel init combine).Isolated view
  reduceRight {combine : α → α → Act W α} :
    (∀ b a, (combine b a).Isolated view) → (s.reduceRight fuel combine).Isolated view
  find {p : α → Act W Bool} : (∀ a, (p a).Isolated view) → (s.find fuel p).Isolated view
  findIndex {p : α → Act W Bool} :
    (∀ a, (p a).Isolated view) → (s.findIndex fuel p).Isolated view
  indexOf {eq : α → α → Act W Bool} (most : Option Nat) (a : α) (start : Nat) :
    (∀ a b, (eq a b).Isolated view) → (s.indexOf most fuel eq a start).Isolated view
  some? {p : α → Act W Bool} : (∀ a, (p a).Isolated view) → (s.some? fuel p).Isolated view
  every? {p : α → Act W Bool} : (∀ a, (p a).Isolated view) → (s.every? fuel p).Isolated view
  includes {eq : α → α → Act W Bool} (a : α) :
    (∀ a b, (eq a b).Isolated view) → (s.includes fuel eq a).Isolated view
  head : (s.head fuel).Isolated view
  isEmpty : (s.isEmpty fuel).Isolated view
  option : (s.option fuel).Isolated view
  one : (s.one fuel).Isolated view
  toSet [DecidableEq α] : (s.toSet fuel).Isolated view
  toMap {κ β : Type} [DecidableEq κ] {key : α → Act W κ} {value : α → Act W β} :
    (∀ a, (key a).Isolated view) → (∀ a, (value a).Isolated view) →
      (s.toMap fuel key value).Isolated view
  join {text : α → Run W String} (separator : String) :
    (∀ a, (text a).Isolated view) → (s.join fuel text separator).Isolated view

theorem Isolated.overlooks {s : Stream W α} (hs : s.Isolated view) (p : S × List E) :
    s.Overlooks (past view p) :=
  isolated_iff.mp hs p

/-- An operation overlooks every past if what it calls does. -/
theorem Isolated.consumedAlone {s : Stream W α} (hs : s.Isolated view) (fuel : Nat) :
    s.ConsumedAlone view fuel where
  consume finish b hv := Run.isolated_iff.mpr fun p =>
    (hs.overlooks p).consume (fun b a => (hv b a).overlooks p) fuel finish b
  toArray := Run.isolated_iff.mpr fun p => (hs.overlooks p).toArray fuel
  traverse hf := Run.isolated_iff.mpr fun p =>
    (hs.overlooks p).traverse (fun a => (hf a).overlooks p) fuel
  take n hw := Run.isolated_iff.mpr fun p =>
    (hs.overlooks p).take (fun a => (hw a).overlooks p) fuel n
  count := Run.isolated_iff.mpr fun p => (hs.overlooks p).count fuel
  forEach hf := Run.isolated_iff.mpr fun p =>
    (hs.overlooks p).forEach (fun a => (hf a).overlooks p) fuel
  tryForEach hf := Run.isolated_iff.mpr fun p =>
    (hs.overlooks p).tryForEach (fun a => (hf a).overlooks p) fuel
  reduceWith init hf := Run.isolated_iff.mpr fun p =>
    (hs.overlooks p).reduceWith (fun b a => (hf b a).overlooks p) fuel init
  reduce hf := Run.isolated_iff.mpr fun p =>
    (hs.overlooks p).reduce (fun b a => (hf b a).overlooks p) fuel
  tryReduceWith init hf := Run.isolated_iff.mpr fun p =>
    (hs.overlooks p).tryReduceWith (fun b a => (hf b a).overlooks p) fuel init
  reduceRightWith init hf := Run.isolated_iff.mpr fun p =>
    (hs.overlooks p).reduceRightWith (fun b a => (hf b a).overlooks p) fuel init
  reduceRight hf := Run.isolated_iff.mpr fun p =>
    (hs.overlooks p).reduceRight (fun b a => (hf b a).overlooks p) fuel
  find hf := Run.isolated_iff.mpr fun p =>
    (hs.overlooks p).find (fun a => (hf a).overlooks p) fuel
  findIndex hf := Run.isolated_iff.mpr fun p =>
    (hs.overlooks p).findIndex (fun a => (hf a).overlooks p) fuel
  indexOf most a start he := Run.isolated_iff.mpr fun p =>
    (hs.overlooks p).indexOf (fun a b => (he a b).overlooks p) most fuel a start
  some? hf := Run.isolated_iff.mpr fun p =>
    (hs.overlooks p).some? (fun a => (hf a).overlooks p) fuel
  every? hf := Run.isolated_iff.mpr fun p =>
    (hs.overlooks p).every? (fun a => (hf a).overlooks p) fuel
  includes a he := Run.isolated_iff.mpr fun p =>
    (hs.overlooks p).includes (fun a b => (he a b).overlooks p) fuel a
  head := Run.isolated_iff.mpr fun p => (hs.overlooks p).head fuel
  isEmpty := Run.isolated_iff.mpr fun p => (hs.overlooks p).isEmpty fuel
  option := Run.isolated_iff.mpr fun p => (hs.overlooks p).option fuel
  one := Run.isolated_iff.mpr fun p => (hs.overlooks p).one fuel
  toSet := Run.isolated_iff.mpr fun p => (hs.overlooks p).toSet fuel
  toMap hk hv := Run.isolated_iff.mpr fun p =>
    (hs.overlooks p).toMap (fun a => (hk a).overlooks p) (fun a => (hv a).overlooks p) fuel
  join separator ht := Run.isolated_iff.mpr fun p =>
    (hs.overlooks p).join (fun a => (ht a).overlooks p) fuel separator

end Stream

theorem TreeStream.Isolated.overlooks {t : TreeStream W ν ι} (ht : t.Isolated view)
    (p : S × List E) : t.stream.Overlooks (past view p) :=
  overlooks_stream (fun n => (ht.children n).overlooks p) fun i => (ht.book i).overlooks p

theorem TreeStream.Isolated.stream {t : TreeStream W ν ι} (ht : t.Isolated view) :
    t.stream.Isolated view :=
  Stream.isolated_iff.mpr ht.overlooks

/-! ## Requests -/

/-- What happens in a session as far as one cursor is concerned: it is asked for something, or the
world changes, since anything else goes on there. -/
inductive Happening (W Q : Type) where
  | asked (q : Q)
  | meanwhile (change : W → W)

def requests {Q : Type} : List (Happening W Q) → List Q
  | [] => []
  | .asked q :: rest => q :: requests rest
  | .meanwhile _ :: rest => requests rest

section Asking

variable {C : Type 1} {Q A : Type} {ask : C → W → Q → Option (A × C × W)} {P : C → Prop}

/-- The answers to the requests of a history, each with what was logged on the way, and what becomes
of the thing that is asked. A panic is an answer, and the history goes on. -/
def told (view : W ≃ S × List E) (ask : C → W → Q → Option (A × C × W)) (c : C) (w : W) :
    List (Happening W Q) → Option (List (A × List E) × C)
  | [] => some ([], c)
  | .meanwhile change :: rest => told view ask c (change w) rest
  | .asked q :: rest =>
    match ask c w q with
    | none => none
    | some (a, d, v) => (told view ask d v rest).map fun (reports, e) =>
      ((a, added view w v) :: reports, e)

/-- What comes of opening something in a world and then asking it. -/
def sitting (view : W ≃ S × List E) (start : Act W C) (ask : C → W → Q → Option (A × C × W))
    (w : W) (history : List (Happening W Q)) :
    Except Panic (Option (List (A × List E) × C)) × List E :=
  match start w with
  | (.ok c, v) => (.ok (told view ask c v history), added view w v)
  | (.error p, v) => (.error p, added view w v)

/-- A request comes back alike in all worlds, with a state of which `P` holds, or in none. -/
inductive Solitary (view : W ≃ S × List E) (P : C → Prop) (x : W → Option (A × C × W)) : Prop
  | exhausted (h : ∀ w, x w = none)
  | back {a : A} {c : C} {es : List E} (hc : P c) (h : ∀ w, x w = some (a, c, logged view es w))

theorem Solitary.of_alike {P : S × List E → C → Prop} {x : W → Option (A × C × W)}
    (h : ∀ p w, Alike (past view p) (P p) (x w) (x (past view p w))) :
    Solitary view (fun c => ∀ p, P p c) x := by
  rcases isEmpty_or_nonempty W with hw | ⟨⟨w₀⟩⟩
  · exact .exhausted isEmptyElim
  · have ht := told_unlogged view (fun p w => (h p w).eq_map) w₀
    rcases hx : x (unlogged view w₀) with _ | ⟨a, c, v⟩ <;> rw [hx] at ht
    · exact .exhausted ht
    · exact .back (fun p => (h p _).keeps hx) ht

variable (hp : ∀ {c}, P c → ∀ q, Solitary view P fun w => ask c w q)

include hp

/-- It is enough to know the requests: nothing else in a history makes a difference. -/
theorem told_requests {c : C} (hc : P c) (w v : W) (history : List (Happening W Q)) :
    told view ask c w history = told view ask c v ((requests history).map .asked) := by
  induction history generalizing c w v with
  | nil => rfl
  | cons happening rest ih =>
    cases happening with
    | meanwhile change => exact ih hc (change w) v
    | asked q =>
      rw [requests, List.map_cons, told, told]
      cases hp hc q with
      | exhausted h => simp only [h]
      | @back a d es hd h =>
        simp only [h, added_logged]
        rw [ih hd (logged view es w) (logged view es v)]

theorem told_keeps {c d : C} (hc : P c) {w : W} {history : List (Happening W Q)}
    {reports : List (A × List E)} (h : told view ask c w history = some (reports, d)) : P d := by
  induction history generalizing c w reports with
  | nil =>
    cases h
    exact hc
  | cons happening rest ih =>
    cases happening with
    | meanwhile change => exact ih hc h
    | asked q =>
      rw [told] at h
      cases hp hc q with
      | exhausted hx => simp only [hx, reduceCtorEq] at h
      | back hd hx =>
        simp only [hx, Option.map_eq_some_iff] at h
        obtain ⟨⟨later, e⟩, ht, he⟩ := h
        cases he
        exact ih hd ht

theorem told_alike {c : C} (hc : P c) {w v : W} {one other : List (Happening W Q)}
    (h : requests one = requests other) :
    told view ask c w one = told view ask c v other := by
  rw [told_requests hp hc w w one, told_requests hp hc v w other, h]

theorem sitting_alike {start : Act W C} (hs : start.Isolated view)
    (ho : ∀ {c w v}, start w = (.ok c, v) → P c) {w v : W} {one other : List (Happening W Q)}
    (h : requests one = requests other) :
    sitting view start ask w one = sitting view start ask v other := by
  obtain ⟨r, es, hs⟩ := hs
  unfold sitting
  rw [hs w, hs v]
  cases r with
  | error p => simp only [added_logged]
  | ok c =>
    simp only [added_logged]
    rw [told_alike hp (ho (hs w)) h]

end Asking

/-! ## Cursors -/

inductive Request where
  | step
  | advanceBy (n : Nat)
  | next
  | nth (n : Nat)

def Request.query : Request → Query W
  | .step => .call .step
  | .advanceBy n => .call (.advanceBy n)
  | .next => .next
  | .nth n => .nth n

namespace Cursor

def ask (fuel : Nat) (c : Cursor W α) (w : W) (q : Request) :
    Option (Except Panic (Answer α) × Cursor W α × W) :=
  c.query fuel w q.query

theorem drivesAlike_ask {g : W → W} (fuel : Nat) (q : Request) :
    DrivesAlike g fun (c : Cursor W α) w => c.ask fuel w q := by
  intro c hc w
  cases q with
  | step => exact ((drivesAlike_step fuel hc w).map _).map _
  | advanceBy n => exact ((drivesAlike_advanceBy fuel n hc w).map _).map _
  | next => exact (drivesAlike_next fuel hc w).map _
  | nth n => exact (drivesAlike_nth fuel n hc w).map _

theorem solitary_ask (fuel : Nat) {c : Cursor W α} (hc : ∀ p, c.Overlooks (past view p))
    (q : Request) :
    Solitary view (fun d : Cursor W α => ∀ p, d.Overlooks (past view p)) fun w =>
      c.ask fuel w q :=
  .of_alike fun p w => drivesAlike_ask fuel q (hc p) w

theorem ascend_overlooks {g : W → W} {c : Cursor W α} (h : c.Overlooks g) :
    c.ascend.Overlooks g := by
  cases c with
  | descend => trivial
  | dive => exact h.2.2.2
  | _ => exact h

end Cursor

/-- The stream is opened in a world and asked for elements there. -/
def Stream.sitting (view : W ≃ S × List E) (fuel : Nat) (s : Stream W α) (w : W)
    (history : List (Happening W Request)) :
    Except Panic (Option (List (Except Panic (Answer α) × List E) × Cursor W α)) × List E :=
  PullStream.sitting view s.cursor (Cursor.ask fuel) w history

/-! ## Traversals of trees -/

inductive TreeRequest where
  | ask (q : Request)
  | prune
  | depth

inductive TreeAnswer (ν : Type) where
  | told (a : Answer ν)
  | pruned
  | depth (d : Nat)

namespace TreeCursor

def ask (fuel : Nat) (t : TreeCursor W ν) (w : W) :
    TreeRequest → Option (Except Panic (TreeAnswer ν) × TreeCursor W ν × W)
  | .ask .step =>
    (t.step fuel w).map fun (r, t, w) => (r.map fun x => .told (.replied (.stepped x)), t, w)
  | .ask (.advanceBy n) =>
    (t.advanceBy fuel n w).map fun (r, t, w) => (r.map fun b => .told (.replied (.advanced b)), t, w)
  | .ask .next => (t.next fuel w).map fun (r, t, w) => (r.map fun a => .told (.element a), t, w)
  | .ask (.nth n) => (t.nth fuel n w).map fun (r, t, w) => (r.map fun a => .told (.element a), t, w)
  | .prune => some (.ok .pruned, t.prune, w)
  | .depth => some (.ok (.depth t.depth), t, w)

def Overlooks (g : W → W) (t : TreeCursor W ν) : Prop := t.path.Overlooks g

variable {g : W → W} {t : TreeCursor W ν}

theorem Overlooks.settle (h : t.Overlooks g) : t.settle.Overlooks g := by
  unfold TreeCursor.settle
  split
  · exact Cursor.ascend_overlooks h
  · exact h

theorem Overlooks.along (h : t.Overlooks g)
    {use : Cursor W ν → W → Option (Except Panic ρ × Cursor W ν × W)}
    (hu : Cursor.DrivesAlike g use) (w : W) :
    Alike g (Overlooks g) (t.along use w) (t.along use (g w)) := by
  have ha := hu h.settle w
  unfold TreeCursor.along
  generalize use t.settle.path w = x at ha ⊢
  generalize use t.settle.path (g w) = y at ha ⊢
  cases ha with
  | exhausted => exact .exhausted
  | back hc => exact .back hc

theorem Overlooks.ask (h : t.Overlooks g) (fuel : Nat) (w : W) (q : TreeRequest) :
    Alike g (Overlooks g) (t.ask fuel w q) (t.ask fuel (g w) q) := by
  cases q with
  | ask q =>
    cases q with
    | step => exact (h.along (Cursor.drivesAlike_step fuel) w).map _
    | advanceBy n =>
      refine Alike.map _ ?_
      unfold TreeCursor.advanceBy
      split
      · exact .back h
      · exact h.along (Cursor.drivesAlike_advanceBy fuel n) w
    | next => exact (h.along (Cursor.drivesAlike_next fuel) w).map _
    | nth n => exact (h.along (Cursor.drivesAlike_nth fuel n) w).map _
  | prune => exact .back h
  | depth => exact .back h

end TreeCursor

def TreeStream.sitting (view : W ≃ S × List E) (fuel : Nat) (t : TreeStream W ν ι) (w : W)
    (history : List (Happening W TreeRequest)) :
    Except Panic (Option (List (Except Panic (TreeAnswer ν) × List E) × TreeCursor W ν)) × List E :=
  PullStream.sitting view t.cursor (TreeCursor.ask fuel) w history

/-! ## Histories -/

theorem Stream.Isolated.sitting {s : Stream W α} (hs : s.Isolated view) (fuel : Nat) {w v : W}
    {one other : List (Happening W Request)} (h : requests one = requests other) :
    s.sitting view fuel w one = s.sitting view fuel v other :=
  sitting_alike (Cursor.solitary_ask fuel)
    (Act.isolated_iff.mpr fun p => (hs.overlooks p).cursor)
    (fun ho p => (hs.overlooks p).opened ho) h

theorem TreeStream.Isolated.sitting {t : TreeStream W ν ι} (ht : t.Isolated view) (fuel : Nat)
    {w v : W} {one other : List (Happening W TreeRequest)} (h : requests one = requests other) :
    t.sitting view fuel w one = t.sitting view fuel v other := by
  refine sitting_alike (P := fun c => ∀ p, c.Overlooks (past view p))
    (fun hc q => .of_alike fun p w => (hc p).ask fuel w q)
    (Act.isolated_iff.mpr fun p => (ht.overlooks p).cursor.andThen fun _ => Act.overlooks_done _)
    (fun ho p => ?_) h
  obtain ⟨c, u, hc, he⟩ := Act.andThen_ok ho
  cases he
  exact (ht.overlooks p).opened hc

/-- Whatever went on before, and goes on between the requests, a stream or a tree that shares nothing
is opened alike and its cursor comes to the same answers and panics, with the same entries in the log,
as long as it is asked for the same. The consuming operations come to the same, too. -/
theorem histories_unnoticed (view : W ≃ S × List E) (fuel : Nat) :
    (∀ {α : Type} {s : Stream W α}, s.Isolated view → s.ConsumedAlone view fuel ∧
      ∀ {w v : W} {one other : List (Happening W Request)}, requests one = requests other →
        s.sitting view fuel w one = s.sitting view fuel v other) ∧
    ∀ {ν ι : Type} {t : TreeStream W ν ι}, t.Isolated view → t.stream.Isolated view ∧
      ∀ {w v : W} {one other : List (Happening W TreeRequest)}, requests one = requests other →
        t.sitting view fuel w one = t.sitting view fuel v other :=
  ⟨fun hs => ⟨hs.consumedAlone fuel, hs.sitting fuel⟩, fun ht => ⟨ht.stream, ht.sitting fuel⟩⟩

/-- A number that calls share, and a log of numbers. -/
def register : Nat × List Nat ≃ Nat × List Nat := .refl _

/-- Something else uses the number and the log. -/
def Happening.count {Q : Type} : Happening (Nat × List Nat) Q :=
  .meanwhile fun w => (w.1 + 1, w.2 ++ [w.1])

def jot (n : Nat) : Act (Nat × List Nat) Unit := fun w => (.ok (), w.1, w.2 ++ [n])

/-- Pulls are logged, and the second one panics. -/
def balking : Source (Nat × List Nat) Nat Nat where
  pull n w := (if n = 1 then .error ⟨"second"⟩ else .ok (.yield n), n + 1, (jot n w).2)
  jump := none

def balks : Stream (Nat × List Nat) Nat :=
  ((Stream.source (Act.done 0) balking).map
    fun n => (jot (10 + n)).andThen fun _ => Act.done n).limit 3

/-- A number stands above its two halves. -/
def halves : TreeStream (Nat × List Nat) Nat Nat where
  root := 3
  children n := (jot n).andThen fun _ => Act.done n
  book n := .ofArray (if n < 2 then #[] else #[n / 2, n - n / 2])
  includesRoot := true

theorem histories_unnoticed_balks :
    (balks.count 9).Isolated register ∧
    balks.sitting register 9 (7, [8])
        [.count, .asked .step, .count, .asked .next, .asked (.nth 0), .count] =
      balks.sitting register 9 (0, []) [.asked .step, .asked .next, .asked (.nth 0)] ∧
    (balks.sitting register 9 (0, []) [.asked .step, .asked .next, .asked (.nth 0)]).1.map
        (·.map (·.1)) =
      .ok (some [(.ok (.replied (.stepped (.yield 0))), [0, 10]), (.error ⟨"second"⟩, [1]),
        (.ok (.element (some 2)), [2, 12])]) ∧
    halves.sitting register 9 (7, [8]) [.asked (.ask .next), .count, .asked (.ask .next),
        .asked .prune, .count, .asked (.ask .step)] =
      halves.sitting register 9 (0, []) [.asked (.ask .next), .asked (.ask .next), .asked .prune,
        .asked (.ask .step)] ∧
    (halves.sitting register 9 (0, []) [.asked (.ask .next), .asked (.ask .next), .asked .prune,
        .asked (.ask .step)]).1.map (·.map (·.1)) =
      .ok (some [(.ok (.told (.element (some 3))), [3]), (.ok (.told (.element (some 1))), [1]),
        (.ok .pruned, []), (.ok (.told (.replied (.stepped (.yield 2)))), [2])]) := by
  have hb : balks.Isolated register :=
    ⟨fun n => ⟨.ok n, [10 + n], fun _ => rfl⟩, Act.isolated_done 0,
      fun n => ⟨_, _, [n], fun _ => rfl⟩, fun _ h => nomatch h⟩
  have hh : halves.Isolated register :=
    ⟨fun n => ⟨.ok n, [n], fun _ => rfl⟩, fun n =>
      Stream.isolated_iff.mpr fun _ => Stream.overlooks_ofArray _⟩
  obtain ⟨streams, trees⟩ := histories_unnoticed register 9
  exact ⟨(streams hb).1.count, (streams hb).2 rfl, rfl, (trees hh).2 rfl, rfl⟩

end PullStream
