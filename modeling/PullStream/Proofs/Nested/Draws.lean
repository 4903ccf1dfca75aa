import PullStream.Nested
import PullStream.Proofs.Snoc

/-!
# Logs of a drain

What is done while the stream of a nested structure is flattened and drained, in the order in which
it is written down: openings, pulls, and elements handed over. `Draw.Fetched` says how such a log
comes about, together with the streams that are open meanwhile, and every fact about the logs is
proved along it. `Draw.OnDemand` is what a finished log says.
-/

set_option autoImplicit false

namespace PullStream

variable {ι α : Type}

/-- The stream that is opened for an element at a level where streams are entered or are not. -/
def Nested.entered : Bool → Nested ι α → Option ι
  | true, .stream i => some i
  | _, _ => none

@[simp] theorem Nested.entered_value (enters : Bool) (a : α) :
    (value a : Nested ι α).entered enters = none := by
  cases enters <;> rfl

theorem Nested.eq_stream_of_entered {enters : Bool} {x : Nested ι α} {i : ι}
    (h : x.entered enters = some i) : x = .stream i := by
  cases x with
  | value a => simp at h
  | stream j =>
    cases enters with
    | true => exact congrArg _ (Option.some.inj h)
    | false => cases h

/-- What is done for a drain. The stream that it starts from is opened without a name. A stream is
pulled under the place where its opening is written. -/
inductive Draw (ι α : Type) where
  | opened (i : Option ι)
  | pulled (stream : Nat) (x : Option (Nested ι α))
  | yielded (x : Nested ι α)

namespace Draw

/-- What is done right after an element was pulled. -/
def next (enters : Bool) (x : Nested ι α) : Draw ι α :=
  match x.entered enters with
  | some i => .opened (some i)
  | none => .yielded x

def answer? (k : Nat) : Draw ι α → Option (Option (Nested ι α))
  | pulled r x => if r = k then some x else none
  | _ => none

/-- What the pulls of a stream were answered with, in order. -/
def answers (k : Nat) (l : List (Draw ι α)) : List (Option (Nested ι α)) :=
  l.filterMap (answer? k)

/-- The stream was opened and has not reported its end. -/
def Open (l : List (Draw ι α)) (k : Nat) : Prop :=
  (∃ i, l[k]? = some (.opened i)) ∧ none ∉ answers k l

/-- How many streams the elements of a stream lie inside of. -/
inductive Lies (l : List (Draw ι α)) : Nat → Nat → Prop
  | source : Lies l 0 0
  | inner {k n q : Nat} {x : Option (Nested ι α)} {i : Option ι} (h : Lies l k n)
      (hp : l[q]? = some (.pulled k x)) (ho : l[q + 1]? = some (.opened i)) : Lies l (q + 1) (n + 1)

/-- The last pull of a stream, of all that were written down, was at this place. -/
def LastPull (l : List (Draw ι α)) (k p : Nat) (x : Nested ι α) : Prop :=
  l[p]? = some (.pulled k (some x)) ∧ ∀ j m, p < j → l[j]? ≠ some (.pulled k m)

/-- Logs of a drain, with the streams that are open when as much has been written: the one opened
last in front, each with the elements that it has still to give. The stream in front is pulled, and
its element is handed over, or else the stream that it names is opened. -/
inductive Fetched (contents : Option ι → List (Nested ι α)) (enters : Nat → Bool) :
    List (Draw ι α) → List (Nat × List (Nested ι α)) → Prop
  | begun : Fetched contents enters [.opened none] [(0, contents none)]
  | entered {l : List (Draw ι α)} {k : Nat} {x : Nested ι α} {i : ι} {xs : List (Nested ι α)}
      {stack : List (Nat × List (Nested ι α))}
      (h : Fetched contents enters l ((k, x :: xs) :: stack))
      (hx : x.entered (enters stack.length) = some i) :
      Fetched contents enters (l ++ [.pulled k (some x)] ++ [.opened (some i)])
        ((l.length + 1, contents (some i)) :: (k, xs) :: stack)
  | passed {l : List (Draw ι α)} {k : Nat} {x : Nested ι α} {xs : List (Nested ι α)}
      {stack : List (Nat × List (Nested ι α))}
      (h : Fetched contents enters l ((k, x :: xs) :: stack))
      (hx : x.entered (enters stack.length) = none) :
      Fetched contents enters (l ++ [.pulled k (some x)] ++ [.yielded x]) ((k, xs) :: stack)
  | ended {l : List (Draw ι α)} {k : Nat} {stack : List (Nat × List (Nested ι α))}
      (h : Fetched contents enters l ((k, []) :: stack)) :
      Fetched contents enters (l ++ [.pulled k none]) stack

/-- What a log says of a drain that does nothing ahead of demand. Every stream that is opened lies at
one level. An element that is pulled decides by its kind and the level of its stream what is done
right after it; a stream is opened and an element handed over only then. Streams are pulled once for
each of their elements and once for the end, and only while no stream that was opened later is open.
When an element is handed over, each open stream was last pulled for this element or for the next of
the open streams. -/
structure OnDemand (contents : Option ι → List (Nested ι α)) (enters : Nat → Bool)
    (l : List (Draw ι α)) : Prop where
  level : ∀ {k i}, l[k]? = some (.opened i) → ∃ n, Lies l k n ∧ ∀ m, Lies l k m → m = n
  next : ∀ {before k x n}, before ++ [.pulled k (some x)] <+: l → Lies l k n →
    before ++ [.pulled k (some x)] ++ [Draw.next (enters n) x] <+: l
  opened : ∀ {before i}, before ++ [.opened i] <+: l → before = [] ∧ i = none ∨
    ∃ earlier k j, before = earlier ++ [.pulled k (some (.stream j))] ∧ i = some j
  yielded : ∀ {before x}, before ++ [.yielded x] <+: l →
    ∃ earlier k, before = earlier ++ [.pulled k (some x)]
  drained : ∀ {k i}, l[k]? = some (.opened i) → answers k l = (contents i).map some ++ [none]
  innermost : ∀ {before k m}, before ++ [.pulled k m] <+: l →
    Open before k ∧ ∀ q, Open before q → q ≤ k
  demand : ∀ {before x}, before ++ [.yielded x] <+: l → ∀ k, Open before k →
    ∃ p y, LastPull before k p y ∧ (p + 1 = before.length ∧ y = x ∨ Open before (p + 1))

section Entries

variable {l : List (Draw ι α)} {k r : Nat}

/-- An entry about another stream, or about none. -/
def Apart (k : Nat) (e : Draw ι α) : Prop := ∀ m, e ≠ .pulled k m

theorem apart_opened (i : Option ι) : Apart k (.opened i : Draw ι α) := nofun

theorem apart_yielded (x : Nested ι α) : Apart k (.yielded x) := nofun

theorem apart_pulled (h : k ≠ r) (m : Option (Nested ι α)) : Apart k (.pulled r m) :=
  fun _ he => h (Draw.pulled.inj he).1.symm

theorem answers_snoc {e : Draw ι α} (h : Apart k e) : answers k (l ++ [e]) = answers k l := by
  have he : e.answer? k = none := by
    cases e with
    | pulled r m =>
      have hr : r ≠ k := fun hr => h m (hr ▸ rfl)
      exact if_neg hr
    | opened | yielded => rfl
  simp [answers, he]

theorem answers_pulled (m : Option (Nested ι α)) :
    answers k (l ++ [.pulled k m]) = answers k l ++ [m] := by
  simp [answers, answer?]

theorem mem_of_answers {x : Option (Nested ι α)} (h : x ∈ answers k l) : .pulled k x ∈ l := by
  obtain ⟨e, he, ha⟩ := List.mem_filterMap.mp h
  cases e with
  | pulled r y =>
    by_cases hr : r = k
    · subst hr
      simp only [answer?, if_true, Option.some.injEq] at ha
      rwa [← ha]
    · simp [answer?, hr] at ha
  | opened | yielded => cases ha

theorem LastPull.snoc {p : Nat} {x : Nested ι α} (h : LastPull l k p x) {e : Draw ι α}
    (he : Apart k e) : LastPull (l ++ [e]) k p x := by
  refine ⟨getElem?_kept h.1 [e], fun j m hj hp => ?_⟩
  by_cases hl : j < l.length
  · rw [List.getElem?_append_left hl] at hp
    exact h.2 j m hj hp
  · have hlt := (List.getElem?_eq_some_iff.mp hp).1
    obtain rfl : j = l.length := by
      rw [List.length_append, List.length_singleton] at hlt
      omega
    rw [List.getElem?_concat_length] at hp
    exact he m (Option.some.inj hp)

theorem lastPull_pulled (x : Nested ι α) : LastPull (l ++ [.pulled k (some x)]) k l.length x := by
  refine ⟨List.getElem?_concat_length, fun j m hj hp => ?_⟩
  have hlt := (List.getElem?_eq_some_iff.mp hp).1
  rw [List.length_append, List.length_singleton] at hlt
  omega

theorem Lies.mono {n : Nat} (h : Lies l k n) {l' : List (Draw ι α)} (hl : l <+: l') :
    Lies l' k n := by
  obtain ⟨es, rfl⟩ := hl
  induction h with
  | source => exact .source
  | inner _ hp ho ih => exact .inner ih (getElem?_kept hp es) (getElem?_kept ho es)

theorem open_yielded (x : Nested ι α) : Open (l ++ [.yielded x]) k ↔ Open l k := by
  simp [Open, answers_snoc (apart_yielded x), getElem?_snoc]

theorem next_eq_opened {enters : Bool} {x : Nested ι α} {i : Option ι}
    (h : next enters x = .opened i) : ∃ j, x = .stream j ∧ i = some j := by
  unfold next at h
  split at h
  · next j hx => exact ⟨j, Nested.eq_stream_of_entered hx, (Draw.opened.inj h).symm⟩
  · cases h

theorem next_eq_yielded {enters : Bool} {x y : Nested ι α} (h : next enters x = .yielded y) :
    x = y ∧ x.entered enters = none := by
  unfold next at h
  split at h
  · cases h
  · next hx => exact ⟨Draw.yielded.inj h, hx⟩

theorem next_ne_pulled {enters : Bool} {x : Nested ι α} {m : Option (Nested ι α)} :
    next enters x ≠ .pulled k m := by
  unfold next
  split <;> nofun

theorem Lies.unique {m n : Nat} (h : Lies l k n) (h' : Lies l k m) : m = n := by
  induction h generalizing m with
  | source =>
    cases h'
    rfl
  | inner _ hp _ ih =>
    cases h' with
    | inner h' hp' _ =>
      rw [hp] at hp'
      cases hp'
      rw [ih h']

end Entries

section Progress

variable {contents : Option ι → List (Nested ι α)} {l : List (Draw ι α)} {k : Nat}
  {x : Nested ι α} {xs : List (Nested ι α)} {e : Draw ι α}

/-- A stream that has given all its elements but the last ones. -/
def Halfway (contents : Option ι → List (Nested ι α)) (l : List (Draw ι α)) (k : Nat)
    (xs : List (Nested ι α)) : Prop :=
  ∃ i, l[k]? = some (.opened i) ∧ answers k l ++ xs.map some = (contents i).map some

/-- A stream that has given its elements and reported the end. -/
def Finished (contents : Option ι → List (Nested ι α)) (l : List (Draw ι α)) (k : Nat) : Prop :=
  ∃ i, l[k]? = some (.opened i) ∧ answers k l = (contents i).map some ++ [none]

theorem Halfway.snoc (h : Halfway contents l k xs) (he : Apart k e) :
    Halfway contents (l ++ [e]) k xs := by
  obtain ⟨i, hi, ha⟩ := h
  exact ⟨i, getElem?_kept hi [e], by rwa [answers_snoc he]⟩

theorem Finished.snoc (h : Finished contents l k) (he : Apart k e) :
    Finished contents (l ++ [e]) k := by
  obtain ⟨i, hi, ha⟩ := h
  exact ⟨i, getElem?_kept hi [e], by rwa [answers_snoc he]⟩

theorem Halfway.pulled (h : Halfway contents l k (x :: xs)) :
    Halfway contents (l ++ [.pulled k (some x)]) k xs := by
  obtain ⟨i, hi, ha⟩ := h
  refine ⟨i, getElem?_kept hi _, ?_⟩
  rw [answers_pulled, List.append_assoc]
  exact ha

theorem Halfway.ended (h : Halfway contents l k []) :
    Finished contents (l ++ [.pulled k none]) k := by
  obtain ⟨i, hi, ha⟩ := h
  rw [List.map_nil, List.append_nil] at ha
  exact ⟨i, getElem?_kept hi _, by rw [answers_pulled, ha]⟩

theorem Halfway.isOpen (h : Halfway contents l k xs) : Open l k := by
  obtain ⟨i, hi, ha⟩ := h
  refine ⟨⟨i, hi⟩, fun hn => ?_⟩
  have hm : none ∈ (contents i).map some := ha ▸ List.mem_append_left _ hn
  simp at hm

theorem Finished.not_open (h : Finished contents l k) : ¬ Open l k := by
  obtain ⟨i, -, ha⟩ := h
  rintro ⟨-, hn⟩
  rw [ha] at hn
  simp at hn

end Progress

section WayDown

variable {l : List (Draw ι α)} {stack : List (Nat × List (Nested ι α))} {k : Nat}
  {xs : List (Nested ι α)}

/-- Each open stream was last pulled for the next of the open streams, and the last of them is the
stream that the drain started from. -/
def Descends (l : List (Draw ι α)) : List (Nat × List (Nested ι α)) → Prop
  | [] => True
  | [(k, _)] => k = 0
  | (q, _) :: (k, xs) :: stack =>
    (∃ p x, q = p + 1 ∧ LastPull l k p x) ∧ Descends l ((k, xs) :: stack)

theorem Descends.snoc {e : Draw ι α} (h : Descends l stack)
    (he : ∀ b ∈ stack.tail, Apart b.1 e) : Descends (l ++ [e]) stack := by
  fun_induction Descends l stack with
  | case1 => trivial
  | case2 k ys => exact h
  | case3 q ys k xs stack ih =>
    obtain ⟨⟨p, x, hq, hp⟩, hd⟩ := h
    exact ⟨⟨p, x, hq, hp.snoc (he _ List.mem_cons_self)⟩,
      ih hd fun b hb => he b (List.mem_cons_of_mem _ hb)⟩

/-- What the stream in front has still to give does not matter. -/
theorem Descends.front {ys : List (Nested ι α)} (h : Descends l ((k, ys) :: stack)) :
    Descends l ((k, xs) :: stack) := by
  cases stack with
  | nil => exact h
  | cons b stack => exact h

theorem Descends.tail {b : Nat × List (Nested ι α)} (h : Descends l (b :: stack)) :
    Descends l stack := by
  cases stack with
  | nil => trivial
  | cons b' stack => exact h.2

theorem Descends.lastPull (h : Descends l stack) (hk : (k, xs) ∈ stack.tail) :
    ∃ p x ys, LastPull l k p x ∧ (p + 1, ys) ∈ stack := by
  fun_induction Descends l stack with
  | case1 | case2 => cases hk
  | case3 q ys k' xs' stack ih =>
    obtain ⟨⟨p, x, rfl, hp⟩, hd⟩ := h
    rcases List.mem_cons.mp hk with heq | hk
    · cases heq
      exact ⟨p, x, ys, hp, List.mem_cons_self⟩
    · obtain ⟨p', x', zs, hp', hm⟩ := ih hd hk
      exact ⟨p', x', zs, hp', List.mem_cons_of_mem _ hm⟩

/-- The level of the stream in front is the number of open streams around it. -/
theorem Descends.lies (h : Descends l ((k, xs) :: stack))
    (ho : ∀ b ∈ (k, xs) :: stack, ∃ i, l[b.1]? = some (.opened i)) : Lies l k stack.length := by
  induction stack generalizing k xs with
  | nil =>
    cases h
    exact .source
  | cons b stack ih =>
    obtain ⟨⟨p, x, rfl, hp⟩, hd⟩ := h
    obtain ⟨i, hi⟩ := ho _ List.mem_cons_self
    exact .inner (ih hd fun b hb => ho b (List.mem_cons_of_mem _ hb)) hp.1 hi

end WayDown

/-- An entry that is due when a beginning of the log has been written. -/
inductive Due (contents : Option ι → List (Nested ι α)) (enters : Nat → Bool) :
    List (Draw ι α) → Draw ι α → Prop
  | begin : Due contents enters [] (.opened none)
  | pull {l : List (Draw ι α)} {k : Nat} {xs : List (Nested ι α)}
      {stack : List (Nat × List (Nested ι α))} (h : Fetched contents enters l ((k, xs) :: stack)) :
      Due contents enters l (.pulled k xs.head?)
  | next {l : List (Draw ι α)} {k : Nat} {x : Nested ι α} {xs : List (Nested ι α)}
      {stack : List (Nat × List (Nested ι α))}
      (h : Fetched contents enters l ((k, x :: xs) :: stack)) :
      Due contents enters (l ++ [.pulled k (some x)]) (Draw.next (enters stack.length) x)

namespace Fetched

variable {contents : Option ι → List (Nested ι α)} {enters : Nat → Bool} {l : List (Draw ι α)}
  {stack : List (Nat × List (Nested ι α))} {k : Nat} {xs : List (Nested ι α)}

theorem opened_of_mem (h : Fetched contents enters l stack) (hk : (k, xs) ∈ stack) :
    ∃ i, l[k]? = some (.opened i) := by
  induction h generalizing k xs with
  | begun =>
    obtain ⟨rfl, rfl⟩ := Prod.mk.inj (List.mem_singleton.mp hk)
    exact ⟨none, rfl⟩
  | entered | passed | ended => grind

theorem lt_of_mem (h : Fetched contents enters l stack) (hk : (k, xs) ∈ stack) : k < l.length := by
  obtain ⟨i, hi⟩ := h.opened_of_mem hk
  exact (List.getElem?_eq_some_iff.mp hi).1

/-- The streams in front were opened later. -/
theorem sorted (h : Fetched contents enters l stack) : stack.Pairwise fun a b => b.1 < a.1 := by
  induction h with
  | begun => exact List.pairwise_singleton _ _
  | @entered l k x i xs stack h hx ih =>
    have hl : k < l.length := h.lt_of_mem List.mem_cons_self
    have hm : ∀ b ∈ stack, b.1 < l.length := fun b hb => h.lt_of_mem (List.mem_cons_of_mem _ hb)
    simp only [List.pairwise_cons] at ih ⊢
    grind
  | passed h hx ih | ended h ih =>
    simp only [List.pairwise_cons] at ih ⊢
    grind

theorem pulled_lt (h : Fetched contents enters l stack) {m : Option (Nested ι α)}
    (hp : .pulled k m ∈ l) : k < l.length := by
  induction h with
  | begun => simp at hp
  | entered h hx ih | passed h hx ih | ended h ih =>
    have hl := h.lt_of_mem List.mem_cons_self
    grind

theorem answers_of_le (h : Fetched contents enters l stack) (hk : l.length ≤ k) :
    answers k l = [] := by
  rw [List.eq_nil_iff_forall_not_mem]
  intro x hx
  exact absurd (h.pulled_lt (mem_of_answers hx)) (Nat.not_lt.mpr hk)

/-- The stream that is opened for an element has not been pulled. -/
theorem halfway_opened (h : Fetched contents enters l stack) (hk : (k, xs) ∈ stack)
    (x : Nested ι α) (i : ι) :
    Halfway contents (l ++ [.pulled k (some x)] ++ [.opened (some i)]) (l.length + 1)
      (contents (some i)) := by
  have hlt := h.lt_of_mem hk
  refine ⟨some i, by simp, ?_⟩
  rw [answers_snoc (apart_opened _), answers_snoc (apart_pulled (by omega) _),
    h.answers_of_le (Nat.le_succ _), List.nil_append]

theorem apart_front {r : Nat} {ys : List (Nested ι α)}
    (h : Fetched contents enters l ((r, ys) :: stack)) (hk : (k, xs) ∈ stack)
    (m : Option (Nested ι α)) : Apart k (.pulled r m : Draw ι α) :=
  apart_pulled (Nat.ne_of_lt ((List.pairwise_cons.mp h.sorted).1 _ hk)) m

theorem halfway (h : Fetched contents enters l stack) (hk : (k, xs) ∈ stack) :
    Halfway contents l k xs := by
  induction h generalizing k xs with
  | begun =>
    obtain ⟨rfl, rfl⟩ := Prod.mk.inj (List.mem_singleton.mp hk)
    exact ⟨none, rfl, rfl⟩
  | entered h hx ih =>
    rcases List.mem_cons.mp hk with heq | hk
    · cases heq
      exact h.halfway_opened List.mem_cons_self _ _
    apply Halfway.snoc _ (apart_opened _)
    rcases List.mem_cons.mp hk with heq | hk
    · cases heq
      exact (ih List.mem_cons_self).pulled
    · exact (ih (List.mem_cons_of_mem _ hk)).snoc (h.apart_front hk _)
  | passed h hx ih =>
    apply Halfway.snoc _ (apart_yielded _)
    rcases List.mem_cons.mp hk with heq | hk
    · cases heq
      exact (ih List.mem_cons_self).pulled
    · exact (ih (List.mem_cons_of_mem _ hk)).snoc (h.apart_front hk _)
  | ended h ih => exact (ih (List.mem_cons_of_mem _ hk)).snoc (h.apart_front hk _)

theorem finished_pulled {r : Nat} {ys : List (Nested ι α)}
    (h : Fetched contents enters l ((r, ys) :: stack)) (hf : Finished contents l k)
    (m : Option (Nested ι α)) : Finished contents (l ++ [.pulled r m]) k := by
  apply hf.snoc
  apply apart_pulled
  rintro rfl
  exact hf.not_open (h.halfway List.mem_cons_self).isOpen

/-- A stream that was opened and is open no more has been drained. -/
theorem finished (h : Fetched contents enters l stack) {i : Option ι}
    (hi : l[k]? = some (.opened i)) : (∃ xs, (k, xs) ∈ stack) ∨ Finished contents l k := by
  induction h with
  | begun =>
    have hk : k = 0 := by rcases k with _ | k <;> simp at hi ⊢
    exact .inl ⟨contents none, hk ▸ List.mem_singleton_self _⟩
  | @entered l r x j ys stack h hx ih =>
    have hold : k = l.length + 1 ∨ l[k]? = some (.opened i) := by grind
    rcases hold with rfl | hold
    · exact .inl ⟨_, List.mem_cons_self⟩
    rcases ih hold with ⟨zs, hz⟩ | hf
    · exact .inl (by grind)
    · exact .inr ((h.finished_pulled hf _).snoc (apart_opened _))
  | @passed l r x ys stack h hx ih =>
    have hold : l[k]? = some (.opened i) := by grind
    rcases ih hold with ⟨zs, hz⟩ | hf
    · exact .inl (by grind)
    · exact .inr ((h.finished_pulled hf _).snoc (apart_yielded _))
  | @ended l r stack h ih =>
    have hold : l[k]? = some (.opened i) := by grind
    rcases ih hold with ⟨zs, hz⟩ | hf
    · rcases List.mem_cons.mp hz with heq | hz
      · cases heq
        exact .inr (h.halfway List.mem_cons_self).ended
      · exact .inl ⟨zs, hz⟩
    · exact .inr (h.finished_pulled hf _)

theorem open_iff (h : Fetched contents enters l stack) : Open l k ↔ ∃ xs, (k, xs) ∈ stack := by
  constructor
  · rintro ⟨⟨i, hi⟩, hn⟩
    exact (h.finished hi).resolve_right fun hf => hf.not_open ⟨⟨i, hi⟩, hn⟩
  · rintro ⟨xs, hk⟩
    exact (h.halfway hk).isOpen

theorem descends_pulled {r : Nat} {ys : List (Nested ι α)}
    (h : Fetched contents enters l ((r, ys) :: stack)) (hd : Descends l ((r, ys) :: stack))
    (m : Option (Nested ι α)) (zs : List (Nested ι α)) :
    Descends (l ++ [.pulled r m]) ((r, zs) :: stack) :=
  (hd.snoc fun _ hb => h.apart_front hb m).front

theorem descends (h : Fetched contents enters l stack) : Descends l stack := by
  induction h with
  | begun => rfl
  | @entered l k x i xs stack h hx ih =>
    exact ⟨⟨l.length, x, rfl, (lastPull_pulled x).snoc (apart_opened _)⟩,
      (h.descends_pulled ih _ _).snoc fun _ _ => apart_opened _⟩
  | passed h hx ih => exact (h.descends_pulled ih _ _).snoc fun _ _ => apart_yielded _
  | ended h ih => exact (h.descends_pulled ih none []).tail

theorem lies (h : Fetched contents enters l ((k, xs) :: stack)) : Lies l k stack.length :=
  h.descends.lies fun _ hb => h.opened_of_mem hb

theorem exists_lies (h : Fetched contents enters l stack) {i : Option ι}
    (hi : l[k]? = some (.opened i)) : ∃ n, Lies l k n := by
  induction h with
  | begun =>
    obtain rfl : k = 0 := by rcases k with _ | k <;> simp at hi ⊢
    exact ⟨0, .source⟩
  | @entered l r x j ys stack h hx ih =>
    have hnew := (Fetched.entered h hx).lies
    have hl : l <+: l ++ [.pulled r (some x)] ++ [.opened (some j)] :=
      List.append_assoc l _ _ ▸ List.prefix_append l _
    have hold : k = l.length + 1 ∨ l[k]? = some (.opened i) := by grind
    rcases hold with rfl | hold
    · exact ⟨_, hnew⟩
    · obtain ⟨n, hn⟩ := ih hold
      exact ⟨n, hn.mono hl⟩
  | @passed l r x ys stack h hx ih =>
    obtain ⟨n, hn⟩ := ih (by grind)
    exact ⟨n, hn.mono (List.append_assoc l _ _ ▸ List.prefix_append l _)⟩
  | @ended l r stack h ih =>
    obtain ⟨n, hn⟩ := ih (by grind)
    exact ⟨n, hn.mono (List.prefix_append l _)⟩

/-- What is written for one element was due. -/
theorem due_of_drawn {x : Nested ι α} (h : Fetched contents enters l ((k, x :: xs) :: stack))
    {before : List (Draw ι α)} {e : Draw ι α}
    (hp : before ++ [e] <+: l ++ [.pulled k (some x)] ++ [Draw.next (enters stack.length) x]) :
    Due contents enters before e ∨ before ++ [e] <+: l := by
  rw [snoc_prefix_snoc, snoc_prefix_snoc] at hp
  rcases hp with ⟨rfl, rfl⟩ | ⟨rfl, rfl⟩ | hp
  · exact .inl (.next h)
  · exact .inl (.pull h)
  · exact .inr hp

theorem due (h : Fetched contents enters l stack) {before : List (Draw ι α)} {e : Draw ι α}
    (hp : before ++ [e] <+: l) : Due contents enters before e := by
  induction h with
  | begun =>
    rw [← List.nil_append [Draw.opened none], snoc_prefix_snoc] at hp
    rcases hp with ⟨rfl, rfl⟩ | hp
    · exact .begin
    · simp at hp
  | @entered l k x i xs stack h hx ih =>
    have hn : Draw.opened (some i) = Draw.next (enters stack.length) x := by rw [Draw.next, hx]
    exact (h.due_of_drawn (hn ▸ hp)).elim id ih
  | @passed l k x xs stack h hx ih =>
    have hn : Draw.yielded x = Draw.next (enters stack.length) x := by rw [Draw.next, hx]
    exact (h.due_of_drawn (hn ▸ hp)).elim id ih
  | ended h ih =>
    rcases snoc_prefix_snoc.mp hp with ⟨rfl, rfl⟩ | hp
    · exact .pull h
    · exact ih hp

/-- An element that was pulled is dealt with before anything else. -/
theorem not_pulled_last {x : Nested ι α} :
    ¬ Fetched contents enters (l ++ [.pulled k (some x)]) stack := by
  intro h
  generalize hl : l ++ [.pulled k (some x)] = l' at h
  cases h with
  | begun =>
    rw [← List.nil_append [Draw.opened none]] at hl
    cases (List.append_inj' hl rfl).2
  | entered | passed | ended => cases (List.append_inj' hl rfl).2

/-- What is due after an element was pulled has been done. -/
theorem next_of_pulled (h : Fetched contents enters l stack) {before : List (Draw ι α)}
    {x : Nested ι α} (hp : before ++ [.pulled k (some x)] <+: l) :
    ∃ n, Lies before k n ∧
      before ++ [.pulled k (some x)] ++ [Draw.next (enters n) x] <+: l := by
  obtain ⟨after, rfl⟩ := hp
  cases after with
  | nil => exact absurd (List.append_nil _ ▸ h) not_pulled_last
  | cons e after =>
    have hl : before ++ [.pulled k (some x)] ++ [e] <+:
        before ++ [.pulled k (some x)] ++ e :: after := ⟨after, List.append_assoc _ _ _⟩
    have hd := h.due hl
    generalize hb : before ++ [.pulled k (some x)] = before' at hd hl
    cases hd with
    | begin => simp at hb
    | pull h' => exact absurd (hb ▸ h') not_pulled_last
    | next h' =>
      obtain ⟨rfl, he⟩ := List.append_inj' hb rfl
      cases he
      exact ⟨_, h'.lies, hl⟩

theorem onDemand (h : Fetched contents enters l []) : OnDemand contents enters l where
  level hi := by
    obtain ⟨n, hn⟩ := h.exists_lies hi
    exact ⟨n, hn, fun m hm => hn.unique hm⟩
  next hp hl := by
    obtain ⟨n, hn, hnext⟩ := h.next_of_pulled hp
    obtain rfl := hl.unique (hn.mono ((List.prefix_append _ _).trans hp))
    exact hnext
  opened {before i} hp := by
    generalize he : Draw.opened i = e at hp
    cases h.due hp with
    | begin => exact .inl ⟨rfl, Draw.opened.inj he⟩
    | pull => cases he
    | next h =>
      obtain ⟨j, rfl, hi⟩ := next_eq_opened he.symm
      exact .inr ⟨_, _, j, rfl, hi⟩
  yielded {before x} hp := by
    generalize he : Draw.yielded x = e at hp
    cases h.due hp with
    | begin | pull => cases he
    | next h =>
      obtain ⟨rfl, -⟩ := next_eq_yielded he.symm
      exact ⟨_, _, rfl⟩
  drained hi := by
    obtain ⟨j, hj, ha⟩ := (h.finished hi).resolve_left nofun
    rw [hi] at hj
    cases hj
    exact ha
  innermost {before k m} hp := by
    generalize he : Draw.pulled k m = e at hp
    cases h.due hp with
    | begin => cases he
    | next => exact absurd he.symm next_ne_pulled
    | pull h =>
      cases he
      refine ⟨h.open_iff.mpr ⟨_, List.mem_cons_self⟩, fun q hq => ?_⟩
      obtain ⟨ys, hq⟩ := h.open_iff.mp hq
      rcases List.mem_cons.mp hq with heq | hq
      · exact Nat.le_of_eq (congrArg Prod.fst heq)
      · exact Nat.le_of_lt ((List.pairwise_cons.mp h.sorted).1 _ hq)
  demand {before x} hp k hk := by
    generalize he : Draw.yielded x = e at hp
    cases h.due hp with
    | begin | pull => cases he
    | @next l r y ys stack h =>
      obtain ⟨rfl, hx⟩ := next_eq_yielded he.symm
      have hopen := fun q => open_yielded (l := l ++ [.pulled r (some y)]) (k := q) y
      have hpassed := Fetched.passed h hx
      rw [← hopen k, hpassed.open_iff] at hk
      obtain ⟨zs, hk⟩ := hk
      rcases List.mem_cons.mp hk with heq | hk
      · cases heq
        exact ⟨l.length, y, lastPull_pulled y, .inl ⟨by simp, rfl⟩⟩
      · have hd := h.descends_pulled h.descends (some y) ys
        obtain ⟨p, z, vs, hz, hm⟩ := hd.lastPull hk
        exact ⟨p, z, hz, .inr ((hopen (p + 1)).mp (hpassed.open_iff.mpr ⟨vs, hm⟩))⟩

end Fetched

end Draw

end PullStream
