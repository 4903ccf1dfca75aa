import PullStream.Proofs.Composition.Combinator
import PullStream.Proofs.Cursor.Bounds
import PullStream.Text
import PullStream.Tree

/-!
# What opening a stream does

`Plan` is the syntax of all that streams can be put together from, with callbacks, sources and
children functions that may do anything. To build the stream of a plan takes no world, so it has no
effect. To open it starts one source at most, which `Plan.leftmost` finds on the syntax, and does
nothing else to the world: no other source is started, and neither a pull nor a callback happens.
The cursor is `Fresh`, so nothing has been taken from any storage either.

An operation that consumes a stream opens it once. What it does then is a use of the cursor that it
got, in which the stream has no part any more.
-/

set_option autoImplicit false

namespace PullStream

universe u v

variable {W α β ι κ ρ : Type}

/-! ## Plans -/

/-- Streams that occur as elements, or that a constructor or a children function leads to, are given
by names. -/
inductive Plan (W : Type) : Type → Type 1
  | array {α : Type} (xs : Array α) : Plan W α
  | view {α : Type} (xs : Array α) : Plan W α
  | source {σ α : Type} (start : Act W σ) (src : Source W σ α) : Plan W α
  | handOut {ι α : Type} (start : Act W ι) (book : ι → Plan W α) : Plan W α
  | tree {ν ι : Type} (root : ν) (children : ν → Act W ι) (book : ι → Plan W ν)
      (includesRoot : Bool) : Plan W ν
  | map {β α : Type} (f : β → Act W α) (e : Plan W β) : Plan W α
  | filter {α : Type} (p : α → Act W Bool) (e : Plan W α) : Plan W α
  | filterMap {β α : Type} (f : β → Act W (Option α)) (e : Plan W β) : Plan W α
  | distinctBy {κ α : Type} [DecidableEq κ] (key : α → Act W κ) (e : Plan W α) : Plan W α
  | excludeBy {κ α : Type} [DecidableEq κ] (key : α → Act W κ) (e other : Plan W α) : Plan W α
  | concat {α : Type} (first second : Plan W α) : Plan W α
  | tail {α : Type} (n : Nat) (e : Plan W α) : Plan W α
  | limit {α : Type} (n : Nat) (e : Plan W α) : Plan W α
  | flatten {ι α : Type} (book : ι → Plan W α) (e : Plan W ι) : Plan W α
  | flat {ι α : Type} (book : ι → Plan W (Nested ι α)) (depth : Nat) (e : Plan W (Nested ι α)) :
      Plan W (Nested ι α)
  | leaves {ι α : Type} (book : ι → Plan W (Nested ι α)) (e : Plan W (Nested ι α)) : Plan W α

/-- The source that a session begins with: none, storage, or one with a constructor, which may lead
to another stream that is opened in turn. -/
inductive Leftmost (W : Type) : Type 1
  | nothing
  | storage
  | made {σ : Type} (start : Act W σ) (further : σ → Leftmost W)

/-- Starts the source. -/
def Leftmost.run : Leftmost W → Act W Unit
  | .nothing => Act.done ()
  | .storage => Act.done ()
  | .made start further => start.andThen fun s => (further s).run

namespace Plan

def stream : {α : Type} → Plan W α → Stream W α
  | _, array xs => .ofArray xs
  | _, view xs => .view xs
  | _, source start src => .source start src
  | _, handOut start book => .reopen (.deferred start fun i => (book i).stream)
  | _, tree root children book includesRoot =>
    TreeStream.stream ⟨root, children, fun i => (book i).stream, includesRoot⟩
  | _, map f e => e.stream.map f
  | _, filter p e => e.stream.filter p
  | _, filterMap f e => e.stream.filterMap f
  | _, distinctBy key e => e.stream.distinctBy key
  | _, excludeBy key e other => e.stream.excludeBy key other.stream
  | _, concat first second => first.stream.concat second.stream
  | _, tail n e => e.stream.tail n
  | _, limit n e => e.stream.limit n
  | _, flatten book e => e.stream.flatten fun i => (book i).stream
  | _, flat book depth e => e.stream.flat (fun i => (book i).stream) depth
  | _, leaves book e => e.stream.leaves fun i => (book i).stream

/-- There is nothing to be opened, as can be seen without a step. -/
def vacant : {α : Type} → Plan W α → Bool
  | _, array xs => xs.isEmpty
  | _, view xs => xs.isEmpty
  | _, source _ _ => false
  | _, handOut _ _ => false
  | _, tree _ _ _ _ => false
  | _, map _ e => e.vacant
  | _, filter _ e => e.vacant
  | _, filterMap _ e => e.vacant
  | _, distinctBy _ e => e.vacant
  | _, excludeBy _ e _ => e.vacant
  | _, concat first second => first.vacant && second.vacant
  | _, tail _ e => e.vacant
  | _, limit n e => n == 0 || e.vacant
  | _, flatten _ e => e.vacant
  | _, flat _ _ e => e.vacant
  | _, leaves _ _ => false

/-- The one source that is opened: that of the stream which a combinator is applied to, and of two
in a row that of the first, unless there is nothing in that. -/
def leftmost : {α : Type} → Plan W α → Leftmost W
  | _, array xs => if xs.isEmpty then .nothing else .storage
  | _, view xs => if xs.isEmpty then .nothing else .storage
  | _, source start _ => .made start fun _ => .nothing
  | _, handOut start book => .made start fun i => (book i).leftmost
  | _, tree root children book includesRoot =>
    if includesRoot then .storage else .made (children root) fun i => (book i).leftmost
  | _, map _ e => e.leftmost
  | _, filter _ e => e.leftmost
  | _, filterMap _ e => e.leftmost
  | _, distinctBy _ e => e.leftmost
  | _, excludeBy _ e _ => e.leftmost
  | _, concat first second => if first.vacant then second.leftmost else first.leftmost
  | _, tail _ e => e.leftmost
  | _, limit n e => if n = 0 then .nothing else e.leftmost
  | _, flatten _ e => e.leftmost
  | _, flat _ _ e => e.leftmost
  | _, leaves _ e => e.leftmost

/-! ### Further combinators -/

def nonNull (e : Plan W (Option α)) : Plan W α := e.filterMap Act.done

def distinct [DecidableEq α] (e : Plan W α) : Plan W α := e.distinctBy Act.done

def exclude [DecidableEq α] (e other : Plan W α) : Plan W α := .excludeBy Act.done e other

def flatMap (book : ι → Plan W (Nested ι β)) (f : α → Act W (Nested ι β)) (e : Plan W α) :
    Plan W (Nested ι β) :=
  .flat book 1 (e.map f)

def all (parts : List (Plan W α)) : Plan W α := parts.foldl concat (array #[])

theorem stream_nonNull (e : Plan W (Option α)) : e.nonNull.stream = e.stream.nonNull := rfl

theorem stream_distinct [DecidableEq α] (e : Plan W α) : e.distinct.stream = e.stream.distinct :=
  rfl

theorem stream_exclude [DecidableEq α] (e other : Plan W α) :
    (e.exclude other).stream = e.stream.exclude other.stream := rfl

theorem stream_flatMap (book : ι → Plan W (Nested ι β)) (f : α → Act W (Nested ι β))
    (e : Plan W α) :
    (flatMap book f e).stream = e.stream.flatMap (fun i => (book i).stream) f := rfl

theorem stream_all (parts : List (Plan W α)) :
    (all parts).stream = Stream.all (parts.map stream) := by
  have h : ∀ e : Plan W α,
      (parts.foldl concat e).stream = (parts.map stream).foldl Stream.concat e.stream := by
    induction parts with
    | nil => exact fun _ => rfl
    | cons p parts ih => exact fun e => ih (e.concat p)
  exact h (array #[])

theorem knownEmpty_stream (e : Plan W α) : e.stream.knownEmpty = e.vacant := by
  induction e with
  | array xs | view xs =>
    simp only [stream, vacant, Stream.ofArray, Stream.view]
    cases xs.isEmpty <;> rfl
  | source | handOut | tree | leaves => rfl
  | map _ e ih | filter _ e ih | filterMap _ e ih | distinctBy _ e ih | excludeBy _ e _ ih _
  | tail _ e ih | limit _ e ih | flatten _ e _ ih | flat _ _ e _ ih =>
    simp [stream, vacant, ih]
  | concat first second ihf ihs => simp [stream, vacant, ihf, ihs]

end Plan

/-! ## What opening does to the world -/

-- `Act.andThen_assoc` does not apply: a cursor lives one universe above `()`
theorem Act.forget_andThen {σ : Type u} {τ : Type v} (x : Act W σ) (f : σ → Act W τ) :
    (x.andThen f).andThen (fun _ => Act.done ()) =
      x.andThen fun a => (f a).andThen fun _ => Act.done () := by
  funext w
  simp only [andThen]
  rcases x w with ⟨_ | a, v⟩ <;> rfl

namespace Stream

/-- Opens the stream and forgets the cursor. -/
def starts (s : Stream W α) : Act W Unit := s.cursor.andThen fun _ => Act.done ()

variable {s : Stream W α}

theorem starts_of_stage {t : Stream W β} {wrap : Cursor W α → Cursor W β}
    (h : t.cursor = s.cursor.andThen fun c => Act.done (wrap c)) : t.starts = s.starts := by
  rw [starts, h, Act.forget_andThen]
  rfl

/-- A stage that is left away from nothing starts what it is put upon. -/
theorem starts_stage {t : Stream W β} (h : t.starts = s.starts) :
    (if s.knownEmpty then empty else t).starts = s.starts := by
  cases hs : s.knownEmpty with
  | false => exact h
  | true =>
    rw [eq_empty hs]
    rfl

theorem starts_same {t : Stream W α} {p : Prop} [Decidable p] (h : t.starts = s.starts) :
    (if p then s else t).starts = s.starts := by
  split
  · rfl
  · exact h

theorem starts_deferred (start : Act W ι) (book : ι → Stream W α) :
    (deferred start book).starts = start.andThen fun i => (book i).starts :=
  Act.forget_andThen start _

theorem starts_source {σ : Type} (start : Act W σ) (src : Source W σ α) :
    (source start src).starts = start.andThen fun _ => Act.done () :=
  Act.forget_andThen start _

theorem starts_tree {ν : Type} (t : TreeStream W ν ι) :
    t.stream.starts =
      if t.includesRoot then Act.done ()
      else (t.children t.root).andThen fun i => (t.book i).starts := by
  have ht : t.stream.starts = t.top.starts := starts_of_stage rfl
  rw [ht, TreeStream.top]
  split
  · rfl
  · exact starts_deferred _ _

end Stream

namespace Plan

open PullStream.Stream (starts_of_stage starts_stage starts_same)

theorem starts_stream (e : Plan W α) : e.stream.starts = e.leftmost.run := by
  induction e with
  | array xs | view xs =>
    simp only [stream, leftmost, Stream.ofArray, Stream.view]
    cases xs.isEmpty <;> rfl
  | source start src => exact Stream.starts_source start src
  | handOut start book ih =>
    have hs : (handOut start book).stream.starts = _ := starts_of_stage rfl
    rw [hs, Stream.starts_deferred]
    simp only [ih]
    rfl
  | tree root children book includesRoot ih =>
    rw [stream, Stream.starts_tree, leftmost]
    cases includesRoot
    · simp only [ih]
      rfl
    · rfl
  | map f e ih => exact (starts_stage (starts_of_stage rfl)).trans ih
  | filter p e ih => exact (starts_stage (starts_of_stage rfl)).trans ih
  | filterMap f e ih => exact (starts_stage (starts_of_stage rfl)).trans ih
  | distinctBy key e ih => exact (starts_stage (starts_of_stage rfl)).trans ih
  | excludeBy key e other ih => exact (starts_same (starts_of_stage rfl)).trans ih
  | concat first second ihf ihs =>
    rw [stream, leftmost, Stream.concat, knownEmpty_stream]
    split
    · exact ihs
    · exact (starts_same (starts_of_stage rfl)).trans ihf
  | tail n e ih => exact (starts_same (starts_of_stage rfl)).trans ih
  | limit n e ih =>
    rw [stream, leftmost, Stream.limit]
    by_cases hn : n = 0
    · subst hn
      rfl
    · simp only [hn, decide_false, Bool.false_or, if_false]
      exact (starts_stage (starts_of_stage rfl)).trans ih
  | flatten book e _ ih => exact (starts_stage (starts_of_stage rfl)).trans ih
  | flat book depth e _ ih =>
    exact (starts_same (starts_stage (starts_of_stage rfl))).trans ih
  | leaves book e _ ih => exact (starts_of_stage rfl).trans ih

end Plan

/-! ## What has happened to the cursor -/

/-- Nothing has been pulled, no stream inside is open and no key is known. -/
def Cursor.Fresh : {α : Type} → Cursor W α → Prop
  | _, .empty => True
  | _, .slice _ index => index = 0
  | _, .source _ ended _ => ended = false
  | _, .fused ended c => ended = false ∧ c.Fresh
  | _, .map _ c => c.Fresh
  | _, .filter _ c => c.Fresh
  | _, .filterMap _ c => c.Fresh
  | _, .first c _ => c.Fresh
  | _, .tail _ c => c.Fresh
  | _, .limit _ c => c.Fresh
  | _, .distinct _ _ seen c => seen = [] ∧ c.Fresh
  | _, .excludeFresh _ _ _ c => c.Fresh
  | _, .flatten _ outer => outer.Fresh
  | _, .descend _ _ c => c.Fresh
  | _, _ => False

theorem Stream.cursor_fresh (s : Stream W α) {c : Cursor W α} {w v : W}
    (h : s.cursor w = (.ok c, v)) : c.Fresh := by
  induction s generalizing w v with
  | empty => cases h; trivial
  | items xs => cases h; rfl
  | source start src =>
    obtain ⟨s, v, -, hs⟩ := Act.andThen_ok h
    cases hs
    rfl
  | deferred start book ih =>
    obtain ⟨i, v, -, hi⟩ := Act.andThen_ok h
    exact ih i hi
  | fused _ ih | deduplicating _ _ _ ih =>
    obtain ⟨d, v, hd, hc⟩ := Act.andThen_ok h
    cases hc
    exact ⟨rfl, ih hd⟩
  | mapping _ _ ih | filtering _ _ ih | choosing _ _ ih | joining _ _ ih | skipping _ _ ih
  | capping _ _ ih | excluding _ _ _ _ _ ih | flattening _ _ _ ih | descending _ _ _ _ ih =>
    obtain ⟨d, v, hd, hc⟩ := Act.andThen_ok h
    cases hc
    have hf := ih hd
    exact hf

/-! ## Consuming operations -/

namespace Stream

/-- The operation opens the stream, and goes on with the cursor alone. -/
def OpensOnce (op : Stream W α → Run W ρ) : Prop :=
  ∃ use : Cursor W α → Run W ρ, ∀ s, op s = (Run.ofAct s.cursor).andThen use

theorem opensOnce_session (use : Cursor W α → W → Option (Except Panic ρ × Cursor W α × W)) :
    OpensOnce (session use) := by
  refine ⟨fun c w => (use c w).map fun x => (x.1, x.2.2), fun s => ?_⟩
  funext w
  simp only [session, Run.andThen, Run.ofAct]
  rcases s.cursor w with ⟨_ | c, v⟩ <;> rfl

theorem OpensOnce.andThen {op : Stream W α → Run W ρ} (h : OpensOnce op) (f : ρ → Run W β) :
    OpensOnce fun s => (op s).andThen f := by
  obtain ⟨use, hu⟩ := h
  refine ⟨fun c => (use c).andThen f, fun s => ?_⟩
  funext w
  simp only [hu, Run.andThen, Run.ofAct]
  rcases s.cursor w with ⟨_ | c, v⟩ <;> rfl

/-- Every operation that consumes a stream opens it once. Only the known empty stream is told to be
empty without that. -/
structure ConsumersOpenOnce (W : Type) : Prop where
  session {α ρ : Type} (use : Cursor W α → W → Option (Except Panic ρ × Cursor W α × W)) :
    OpensOnce (session use)
  toArray {α : Type} (fuel : Nat) : OpensOnce (toArray (W := W) (α := α) fuel)
  traverse {α β : Type} (fuel : Nat) (f : α → Run W β) : OpensOnce (traverse fuel f)
  take {α β : Type} (fuel n : Nat) (write : α → Run W β) : OpensOnce (take fuel n write)
  count {α : Type} (fuel : Nat) : OpensOnce (count (W := W) (α := α) fuel)
  forEach {α : Type} (fuel : Nat) (f : α → Act W Unit) : OpensOnce (forEach fuel f)
  tryForEach {α ε : Type} (fuel : Nat) (f : α → Act W (Except ε Unit)) :
    OpensOnce (tryForEach fuel f)
  reduceWith {α β : Type} (fuel : Nat) (init : β) (combine : β → α → Act W β) :
    OpensOnce (reduceWith fuel init combine)
  reduce {α : Type} (fuel : Nat) (combine : α → α → Act W α) : OpensOnce (reduce fuel combine)
  tryReduceWith {α β ε : Type} (fuel : Nat) (init : β) (combine : β → α → Act W (Except ε β)) :
    OpensOnce (tryReduceWith fuel init combine)
  reduceRightWith {α β : Type} (fuel : Nat) (init : β) (combine : β → α → Act W β) :
    OpensOnce (reduceRightWith fuel init combine)
  reduceRight {α : Type} (fuel : Nat) (combine : α → α → Act W α) :
    OpensOnce (reduceRight fuel combine)
  find {α : Type} (fuel : Nat) (p : α → Act W Bool) : OpensOnce (find fuel p)
  findIndex {α : Type} (fuel : Nat) (p : α → Act W Bool) : OpensOnce (findIndex fuel p)
  indexOf {α : Type} (most : Option Nat) (fuel : Nat) (eq : α → α → Act W Bool) (a : α)
    (start : Nat) : OpensOnce (indexOf most fuel eq a start)
  some? {α : Type} (fuel : Nat) (p : α → Act W Bool) : OpensOnce (some? fuel p)
  every? {α : Type} (fuel : Nat) (p : α → Act W Bool) : OpensOnce (every? fuel p)
  includes {α : Type} (fuel : Nat) (eq : α → α → Act W Bool) (a : α) :
    OpensOnce (includes fuel eq a)
  head {α : Type} (fuel : Nat) : OpensOnce (head (W := W) (α := α) fuel)
  option {α : Type} (fuel : Nat) : OpensOnce (option (W := W) (α := α) fuel)
  one {α : Type} (fuel : Nat) : OpensOnce (one (W := W) (α := α) fuel)
  toSet {α : Type} [DecidableEq α] (fuel : Nat) : OpensOnce (toSet (W := W) (α := α) fuel)
  toMap {α κ β : Type} [DecidableEq κ] (fuel : Nat) (key : α → Act W κ) (value : α → Act W β) :
    OpensOnce (toMap fuel key value)
  join {α : Type} (fuel : Nat) (text : α → Run W String) (separator : String) :
    OpensOnce (join fuel text separator)
  isEmpty {α : Type} (fuel : Nat) : ∃ use : Cursor W α → Run W Bool, ∀ s : Stream W α,
    s.isEmpty fuel = if s.knownEmpty then pure true else (Run.ofAct s.cursor).andThen use

theorem consumersOpenOnce (W : Type) : ConsumersOpenOnce W where
  session use := opensOnce_session use
  toArray _ := opensOnce_session _
  traverse _ _ := opensOnce_session _
  take _ _ _ := opensOnce_session _
  count _ := opensOnce_session _
  forEach _ _ := opensOnce_session _
  tryForEach _ _ := opensOnce_session _
  reduceWith _ _ _ := opensOnce_session _
  reduce _ _ := opensOnce_session _
  tryReduceWith _ _ _ := opensOnce_session _
  reduceRightWith _ _ _ := (opensOnce_session _).andThen _
  reduceRight _ _ := (opensOnce_session _).andThen _
  find _ _ := opensOnce_session _
  findIndex _ _ := opensOnce_session _
  indexOf _ _ _ _ _ := opensOnce_session _
  some? _ _ := opensOnce_session _
  every? _ _ := opensOnce_session _
  includes _ _ _ := opensOnce_session _
  head _ := opensOnce_session _
  option _ := (opensOnce_session _).andThen _
  one _ := (opensOnce_session _).andThen _
  toSet _ := opensOnce_session _
  toMap _ _ _ := opensOnce_session _
  join _ _ _ := opensOnce_session _
  isEmpty fuel := by
    obtain ⟨use, hu⟩ :=
      (opensOnce_session (Cursor.next (W := W) fuel)).andThen fun a => pure a.isNone
    refine ⟨use, fun s => ?_⟩
    rw [Stream.isEmpty, ← hu s]
    rfl

/-- A session with the stream of the plan starts the leftmost source and nothing else, and gets a
cursor on which nothing has been done yet. Nothing is started if there is nothing to be opened. -/
structure OpensLazily (e : Plan W α) : Prop where
  starts : e.stream.starts = e.leftmost.run
  fresh : ∀ {w c v}, e.stream.cursor w = (.ok c, v) → c.Fresh
  vacant : e.vacant = true → e.stream.cursor = Act.done .empty

/-- Opening is lazy, for all that can be put together, whatever callbacks and sources do. The
traversal of a tree opens as its stream does. -/
theorem opening_is_lazy (W : Type) :
    (∀ {α : Type} (e : Plan W α), OpensLazily e) ∧
    (∀ {ν ι : Type} (root : ν) (children : ν → Act W ι) (book : ι → Plan W ν) (r : Bool),
      ((⟨root, children, fun i => (book i).stream, r⟩ : TreeStream W ν ι).cursor.andThen
        fun _ => Act.done ()) = (Plan.tree root children book r).leftmost.run) ∧
    ConsumersOpenOnce W := by
  have hl : ∀ {α : Type} (e : Plan W α), OpensLazily e := fun e => {
    starts := e.starts_stream
    fresh := e.stream.cursor_fresh
    vacant := fun he => by
      rw [← e.knownEmpty_stream] at he
      rw [eq_empty he]
      rfl }
  refine ⟨hl, fun root children book r => ?_, consumersOpenOnce W⟩
  rw [← (hl (.tree root children book r)).starts]
  exact Act.forget_andThen _ _

end Stream

end PullStream
