import PullStream.Proofs.Snoc
import PullStream.Proofs.Tree.Survey

/-!
# Logs of traversals

What is done for a traversal in the order in which it is written down: calls for children, openings
of their streams, pulls, and nodes handed over. `Written` says how such a log comes about, entry
after entry, together with the streams that are open meanwhile; every fact about the logs is proved
along it. `Lazily` is what a finished log says. Which nodes it names, and in which order, is proved
along the forest (`Forest.continues_perform`).
-/

set_option autoImplicit false

namespace PullStream

variable {ν : Type}

namespace Event

def called? {κ : Type} : Event κ ν → Option ν
  | called n => some n
  | _ => none

def produced? {κ : Type} : Event κ ν → Option ν
  | produced n _ => some n
  | _ => none

/-- What a stream answered, if the event is a pull of it. -/
def answer? (k : Nat) : Event Nat ν → Option (Option ν)
  | pulled r m => if r = k then some m else none
  | _ => none

theorem answer?_pulled {r k : Nat} (h : r ≠ k) (m : Option ν) :
    (pulled r m).answer? k = none := if_neg h

end Event

/-- Events in order. The mark of a stream is the place where its opening is written. -/
@[reducible] def Ledger.log (ν : Type) : Ledger ν where
  State := List (Event Nat ν)
  Mark := Nat
  write e l := l ++ [e]
  mark := List.length

/-- What the pulls of a stream were answered with, in order. -/
def answers (k : Nat) (l : List (Event Nat ν)) : List (Option ν) := l.filterMap (Event.answer? k)

/-- The node whose children the stream stands for was pruned. -/
def Dropped (l : List (Event Nat ν)) (k : Nat) : Prop :=
  ∃ n j, l[k + 1]? = some (.produced n j) ∧ j ≠ 0

/-- Logs of a traversal, with the streams that are open when as much has been written: the one
opened last in front, each with the nodes that it has still to hand out. The stream in front is
pulled; the node that it answers is called upon for its children, handed over, and pruned or not. -/
inductive Written (kids : ν → List ν) (root : ν) : List (Event Nat ν) → List (Nat × List ν) → Prop
  | begun : Written kids root ([.called root] ++ [.opened root]) [(1, kids root)]
  | kept {l : List (Event Nat ν)} {n : ν} {stack : List (Nat × List ν)}
      (h : Written kids root (l ++ [.opened n]) stack) :
      Written kids root (l ++ [.opened n] ++ [.produced n 0]) stack
  | dropped {l : List (Event Nat ν)} {n : ν} {j : Nat} {stack : List (Nat × List ν)} (hj : j ≠ 0)
      (h : Written kids root (l ++ [.opened n]) ((l.length, kids n) :: stack)) :
      Written kids root (l ++ [.opened n] ++ [.produced n j]) stack
  | entered {l : List (Event Nat ν)} {k : Nat} {n : ν} {ns : List ν}
      {stack : List (Nat × List ν)} (h : Written kids root l ((k, n :: ns) :: stack)) :
      Written kids root (l ++ [.pulled k (some n)] ++ [.called n] ++ [.opened n])
        ((l.length + 2, kids n) :: (k, ns) :: stack)
  | ended {l : List (Event Nat ν)} {k : Nat} {stack : List (Nat × List ν)}
      (h : Written kids root l ((k, []) :: stack)) :
      Written kids root (l ++ [.pulled k none]) stack

/-- While a stream hands out the roots of a forest, a traversal writes in the order of the log, and
at the end of it the stream is closed. -/
theorem Forest.written_perform {kids : ν → List ν} {root : ν} {prunes : List (ν × Nat) → Nat}
    {f : Forest ν} (hf : f.Follows kids) {d k : Nat} {seen : List (ν × Nat)}
    {l : List (Event Nat ν)} {stack : List (Nat × List ν)}
    (hl : Written kids root l ((k, f.roots) :: stack)) :
    Written kids root (f.perform (.log ν) (fun _ => false) prunes
      (fun m l => l ++ [.pulled k m]) d seen l) stack := by
  induction f generalizing d k seen l stack with
  | nil => exact .ended hl
  | cons n below later ihb ihl =>
    obtain ⟨hbn, hb, hr⟩ := hf
    have he := Written.entered hl
    have hm : l.length + 2 = (l ++ [Event.pulled k (some n)] ++ [Event.called n]).length := by
      simp
    rw [hm] at he
    simp only [perform, Bool.false_eq_true, if_false]
    by_cases hz : prunes (seen ++ [(n, d)]) = 0
    · simp only [hz, if_true]
      apply ihl hr
      rw [← hbn] at he
      exact ihb hb (.kept he)
    · simp only [hz, if_false]
      apply ihl hr
      exact .dropped hz he

theorem dropped_snoc {l : List (Event Nat ν)} {e : Event Nat ν} {k : Nat} :
    Dropped (l ++ [e]) k ↔
      Dropped l k ∨ k + 1 = l.length ∧ ∃ n j, e = .produced n j ∧ j ≠ 0 := by
  simp only [Dropped, getElem?_snoc]
  grind

theorem answers_snoc {k : Nat} {l : List (Event Nat ν)} {e : Event Nat ν} (h : e.answer? k = none) :
    answers k (l ++ [e]) = answers k l := by
  simp [answers, h]

theorem answers_pulled (k : Nat) (l : List (Event Nat ν)) (m : Option ν) :
    answers k (l ++ [.pulled k m]) = answers k l ++ [m] := by
  simp [answers, Event.answer?]

/-- A stream that was not dropped and has handed out all children of its node but the last ones. -/
def Halfway (kids : ν → List ν) (l : List (Event Nat ν)) (k : Nat) (ns : List ν) : Prop :=
  ∃ n, l[k]? = some (.opened n) ∧ ¬ Dropped l k ∧ answers k l ++ ns.map some = (kids n).map some

/-- A stream that was dropped before it was pulled, or else has handed out the children of its node
and then reported the end. -/
def Closed (kids : ν → List ν) (l : List (Event Nat ν)) (k : Nat) : Prop :=
  ∃ n, l[k]? = some (.opened n) ∧ (Dropped l k ∧ answers k l = [] ∨
    ¬ Dropped l k ∧ answers k l = (kids n).map some ++ [none])

section Snoc

variable {kids : ν → List ν} {l : List (Event Nat ν)} {k : Nat} {ns : List ν} {e : Event Nat ν}

/-- An entry about another stream or node. -/
def Event.Apart (k : Nat) (e : Event Nat ν) (l : List (Event Nat ν)) : Prop :=
  e.answer? k = none ∧ ∀ n j, e = .produced n j → k + 1 = l.length → j = 0

theorem Event.apart_called (n : ν) : (Event.called n).Apart k l := ⟨rfl, nofun⟩

theorem Event.apart_opened (n : ν) : (Event.opened n).Apart k l := ⟨rfl, nofun⟩

theorem Event.apart_pulled {r : Nat} (h : r ≠ k) (m : Option ν) : (Event.pulled r m).Apart k l :=
  ⟨Event.answer?_pulled h m, nofun⟩

theorem Event.apart_produced {n : ν} {j : Nat} (h : k + 1 = l.length → j = 0) :
    (Event.produced n j).Apart k l :=
  ⟨rfl, fun _ _ he hk => by cases he; exact h hk⟩

theorem dropped_snoc_apart (h : e.Apart k l) : Dropped (l ++ [e]) k ↔ Dropped l k := by
  rw [dropped_snoc]
  constructor
  · rintro (hd | ⟨hk, n, j, rfl, hj⟩)
    · exact hd
    · exact absurd (h.2 n j rfl hk) hj
  · exact .inl

theorem Halfway.snoc (hh : Halfway kids l k ns) (h : e.Apart k l) :
    Halfway kids (l ++ [e]) k ns := by
  obtain ⟨n, hn, hd, ha⟩ := hh
  refine ⟨n, getElem?_snoc.mpr (.inl hn), ?_, ?_⟩
  · rwa [dropped_snoc_apart h]
  · rwa [answers_snoc h.1]

theorem Closed.snoc (hc : Closed kids l k) (h : e.Apart k l) : Closed kids (l ++ [e]) k := by
  obtain ⟨n, hn, hd⟩ := hc
  refine ⟨n, getElem?_snoc.mpr (.inl hn), ?_⟩
  rwa [dropped_snoc_apart h, answers_snoc h.1]

theorem Halfway.of_opened (n : ν) (ha : answers l.length l = []) :
    Halfway kids (l ++ [.opened n]) l.length (kids n) := by
  refine ⟨n, List.getElem?_concat_length, ?_, ?_⟩
  · simp [Dropped]
  · rw [answers_snoc rfl, ha, List.nil_append]

theorem Halfway.pulled {n : ν} (hh : Halfway kids l k (n :: ns)) :
    Halfway kids (l ++ [.pulled k (some n)]) k ns := by
  obtain ⟨m, hm, hd, ha⟩ := hh
  refine ⟨m, getElem?_snoc.mpr (.inl hm), ?_, ?_⟩
  · simpa [dropped_snoc] using hd
  · rw [answers_pulled, List.append_assoc]
    exact ha

theorem Halfway.ended (hh : Halfway kids l k []) : Closed kids (l ++ [.pulled k none]) k := by
  obtain ⟨m, hm, hd, ha⟩ := hh
  rw [List.map_nil, List.append_nil] at ha
  refine ⟨m, getElem?_snoc.mpr (.inl hm), .inr ⟨?_, ?_⟩⟩
  · simpa [dropped_snoc] using hd
  · rw [answers_pulled, ha]

theorem Halfway.dropped {n : ν} {j : Nat} (hj : j ≠ 0)
    (hh : Halfway kids (l ++ [.opened n]) l.length (kids n)) :
    Closed kids (l ++ [.opened n] ++ [.produced n j]) l.length := by
  obtain ⟨m, hm, -, ha⟩ := hh
  obtain rfl : n = m := by simpa using hm
  refine ⟨n, getElem?_snoc.mpr (.inl hm), .inl ⟨?_, ?_⟩⟩
  · exact dropped_snoc.mpr (.inr ⟨by simp, n, j, rfl, hj⟩)
  · rw [answers_snoc rfl]
    simpa using ha

theorem exists_pulled_of_answer {m : Option ν} (h : m ∈ answers k l) :
    ∃ j < l.length, l[j]? = some (.pulled k m) := by
  obtain ⟨e, he, ha⟩ := List.mem_filterMap.mp h
  obtain ⟨j, hj⟩ := List.mem_iff_getElem?.mp he
  refine ⟨j, (List.getElem?_eq_some_iff.mp hj).1, ?_⟩
  cases e <;> simp only [Event.answer?, reduceCtorEq] at ha
  grind

theorem Closed.ended (h : Closed kids l k) :
    Dropped l k ∨ ∃ j < l.length, l[j]? = some (.pulled k none) := by
  obtain ⟨n, -, ⟨hd, -⟩ | ⟨-, ha⟩⟩ := h
  · exact .inl hd
  · refine .inr (exists_pulled_of_answer ?_)
    rw [ha]
    exact List.mem_append_right _ (List.mem_singleton_self none)

end Snoc

namespace Written

variable {kids : ν → List ν} {root : ν} {l : List (Event Nat ν)} {stack : List (Nat × List ν)}
  {k : Nat} {ns : List ν}

theorem first (h : Written kids root l stack) : l[0]? = some (.called root) := by
  induction h with
  | begun => rfl
  | kept | dropped | entered | ended => simp only [getElem?_snoc]; grind

/-- A stream is opened by the entry right behind the call for it, and only there. -/
theorem opened_iff (h : Written kids root l stack) (i : Nat) (n : ν) :
    l[i + 1]? = some (.opened n) ↔ l[i]? = some (.called n) := by
  induction h with
  | begun => rcases i with _ | _ | i <;> simp
  | kept | dropped | entered | ended => simp only [getElem?_snoc] at *; grind

/-- A node is handed over when the stream of its children has just been opened. -/
theorem produced (h : Written kids root l stack) {i j : Nat} {n : ν}
    (hp : l[i + 1]? = some (.produced n j)) : l[i]? = some (.opened n) := by
  induction h with
  | begun => cases i <;> simp at hp
  | kept | dropped | entered | ended => simp only [getElem?_snoc] at *; grind

theorem opened_of_open (h : Written kids root l stack) (hk : (k, ns) ∈ stack) :
    ∃ n, l[k]? = some (.opened n) := by
  induction h generalizing ns with
  | begun =>
    obtain ⟨rfl, rfl⟩ := Prod.mk.inj (List.mem_singleton.mp hk)
    exact ⟨root, rfl⟩
  | kept | dropped | entered | ended => simp only [getElem?_snoc] at *; grind

theorem lt_of_open (h : Written kids root l stack) (hk : (k, ns) ∈ stack) : k < l.length := by
  obtain ⟨n, hn⟩ := h.opened_of_open hk
  exact (List.getElem?_eq_some_iff.mp hn).1

/-- The streams in front were opened later. -/
theorem sorted (h : Written kids root l stack) : stack.Pairwise fun a b => b.1 < a.1 := by
  induction h with
  | begun => exact List.pairwise_singleton _ _
  | kept h ih => exact ih
  | dropped _ h ih | ended h ih => exact (List.pairwise_cons.mp ih).2
  | @entered l k n ns stack h ih =>
    obtain ⟨hk, hp⟩ := List.pairwise_cons.mp ih
    refine List.pairwise_cons.mpr ⟨fun (r, ms) hs => ?_, List.pairwise_cons.mpr ⟨hk, hp⟩⟩
    have hl : k < l.length := h.lt_of_open List.mem_cons_self
    rcases List.mem_cons.mp hs with heq | hs
    · cases heq
      exact Nat.lt_add_right 2 hl
    · exact Nat.lt_add_right 2 (h.lt_of_open (List.mem_cons_of_mem _ hs))

/-- Only streams that were opened before are pulled. -/
theorem pulled (h : Written kids root l stack) {i r : Nat} {m : Option ν}
    (hp : l[i]? = some (.pulled r m)) : r < i ∧ ∃ n, l[r]? = some (.opened n) := by
  induction h with
  | begun => rcases i with _ | _ | i <;> simp at hp
  | kept | dropped => simp only [getElem?_snoc] at *; grind
  | entered h ih | ended h ih =>
    have hl := h.lt_of_open List.mem_cons_self
    have ho := h.opened_of_open List.mem_cons_self
    simp only [getElem?_snoc] at *
    grind

theorem answers_of_le (h : Written kids root l stack) (hk : l.length ≤ k) : answers k l = [] := by
  rw [answers, List.filterMap_eq_nil_iff]
  intro e he
  obtain ⟨i, hi⟩ := List.mem_iff_getElem?.mp he
  cases e with
  | pulled r m =>
    obtain ⟨n, hr⟩ := (h.pulled hi).2
    have hlt : r < l.length := (List.getElem?_eq_some_iff.mp hr).1
    exact Event.answer?_pulled (Nat.ne_of_lt (Nat.lt_of_lt_of_le hlt hk)) m
  | called | opened | failed | produced => rfl

/-- The stream that is opened when a node is entered has not been pulled. -/
theorem halfway_entered {r : Nat} {n : ν} (h : Written kids root l ((r, n :: ns) :: stack)) :
    Halfway kids (l ++ [.pulled r (some n)] ++ [.called n] ++ [.opened n]) (l.length + 2)
      (kids n) := by
  have hr : r < l.length := h.lt_of_open List.mem_cons_self
  have hne : r ≠ l.length + 2 := by omega
  have ha : answers (l.length + 2) (l ++ [.pulled r (some n)] ++ [.called n]) = [] := by
    rw [answers_snoc rfl, answers_snoc (Event.answer?_pulled hne _),
      h.answers_of_le (Nat.le_add_right _ 2)]
  have hl : l.length + 2 = (l ++ [Event.pulled r (some n)] ++ [Event.called n]).length := by simp
  rw [hl] at ha ⊢
  exact .of_opened n ha

/-- An open stream is halfway through the children of its node. -/
theorem halfway (h : Written kids root l stack) (hk : (k, ns) ∈ stack) : Halfway kids l k ns := by
  induction h generalizing k ns with
  | begun =>
    obtain ⟨rfl, rfl⟩ := Prod.mk.inj (List.mem_singleton.mp hk)
    exact .of_opened root rfl
  | kept h ih => exact (ih hk).snoc (Event.apart_produced fun _ => rfl)
  | @dropped l n j stack hj h ih =>
    apply (ih (List.mem_cons_of_mem _ hk)).snoc
    apply Event.apart_produced
    have hlt : k < l.length := (List.pairwise_cons.mp h.sorted).1 _ hk
    rw [List.length_append, List.length_singleton]
    omega
  | @entered l r n ms stack h ih =>
    rcases List.mem_cons.mp hk with heq | hk
    · cases heq
      exact h.halfway_entered
    · apply Halfway.snoc _ (Event.apart_opened n)
      apply Halfway.snoc _ (Event.apart_called n)
      rcases List.mem_cons.mp hk with heq | hk
      · cases heq
        exact (ih List.mem_cons_self).pulled
      · have hlt := (List.pairwise_cons.mp h.sorted).1 _ hk
        exact (ih (List.mem_cons_of_mem _ hk)).snoc (Event.apart_pulled (Nat.ne_of_gt hlt) _)
  | @ended l r stack h ih =>
    have hlt := (List.pairwise_cons.mp h.sorted).1 _ hk
    exact (ih (List.mem_cons_of_mem _ hk)).snoc (Event.apart_pulled (Nat.ne_of_gt hlt) _)

/-- A stream that was opened and is open no more was either dropped or drained. -/
theorem closed (h : Written kids root l stack) {n : ν} (hn : l[k]? = some (.opened n)) :
    (∃ ns, (k, ns) ∈ stack) ∨ Closed kids l k := by
  induction h with
  | begun =>
    have hk : k = 1 := by rcases k with _ | _ | k <;> simp at hn ⊢
    exact .inl ⟨kids root, hk ▸ List.mem_singleton_self _⟩
  | kept h ih =>
    have hn := (getElem?_snoc.mp hn).resolve_right nofun
    exact (ih hn).imp id (·.snoc (Event.apart_produced fun _ => rfl))
  | @dropped l m j stack hj h ih =>
    by_cases hk : k = l.length
    · subst hk
      exact .inr ((h.halfway List.mem_cons_self).dropped hj)
    have hn := (getElem?_snoc.mp hn).resolve_right nofun
    rcases ih hn with ⟨ns, hs⟩ | hc
    · exact .inl ⟨ns, List.mem_of_ne_of_mem (fun heq => hk (congrArg Prod.fst heq)) hs⟩
    · refine .inr (hc.snoc (Event.apart_produced ?_))
      rw [List.length_append, List.length_singleton]
      omega
  | @entered l r m ms stack h ih =>
    by_cases hnew : k = l.length + 2
    · exact .inl ⟨kids m, hnew ▸ List.mem_cons_self⟩
    by_cases hk : r = k
    · exact .inl ⟨ms, hk ▸ List.mem_cons_of_mem _ List.mem_cons_self⟩
    simp only [getElem?_snoc, List.length_append, List.length_singleton, reduceCtorEq, hnew,
      and_false, false_and, or_false] at hn
    rcases ih hn with ⟨ns, hs⟩ | hc
    · have hs := List.mem_of_ne_of_mem (fun heq => hk (congrArg Prod.fst heq).symm) hs
      exact .inl ⟨ns, List.mem_cons_of_mem _ (List.mem_cons_of_mem _ hs)⟩
    · have hc := hc.snoc (Event.apart_pulled hk (some m))
      exact .inr ((hc.snoc (Event.apart_called m)).snoc (Event.apart_opened m))
  | @ended l r stack h ih =>
    have hn := (getElem?_snoc.mp hn).resolve_right nofun
    by_cases hk : r = k
    · subst hk
      exact .inr (h.halfway List.mem_cons_self).ended
    rcases ih hn with ⟨ns, hs⟩ | hc
    · exact .inl ⟨ns, List.mem_of_ne_of_mem (fun heq => hk (congrArg Prod.fst heq).symm) hs⟩
    · exact .inr (hc.snoc (Event.apart_pulled hk none))

/-- What was opened after the stream in front is dropped or drained. -/
theorem ended_of_front {r q : Nat} {n : ν} (h : Written kids root l ((r, ns) :: stack))
    (hq : l[q]? = some (.opened n)) (hr : r < q) :
    Dropped l q ∨ ∃ j < l.length, l[j]? = some (.pulled q none) := by
  rcases h.closed hq with ⟨ms, hs⟩ | hc
  · rcases List.mem_cons.mp hs with heq | hs
    · cases heq
      exact absurd hr (Nat.lt_irrefl _)
    · exact absurd ((List.pairwise_cons.mp h.sorted).1 _ hs) (Nat.lt_asymm hr)
  · exact hc.ended

/-- A stream is pulled again only when all that were opened after it are dropped or drained. -/
theorem siblings (h : Written kids root l stack) {i q r : Nat} {m : Option ν} {n : ν}
    (hi : l[i]? = some (.pulled r m)) (hq : l[q]? = some (.opened n)) (hr : r < q) (hqi : q < i) :
    Dropped l q ∨ ∃ j < i, l[j]? = some (.pulled q none) := by
  induction h with
  | begun => rcases i with _ | _ | i <;> simp at hi
  | kept | dropped =>
    simp only [getElem?_snoc, dropped_snoc] at *
    grind
  -- The pull is one of the entries before, or that of the stream in front.
  | entered h ih | ended h ih =>
    have hf := fun hq => h.ended_of_front (q := q) (n := n) hq
    simp only [getElem?_snoc, dropped_snoc] at *
    grind

end Written

/-- What a log says of a traversal of the descendants of `root` that does nothing too early, too
often or in vain. The root is the first node whose children are called for. A stream is opened right
behind the call that it comes from, a node handed over right behind the opening of the stream of its
children. Streams are pulled after they were opened: one that was dropped never, and any other one
for each child and for the end. What is opened below a node is dropped or drained before the node's
own stream of siblings is pulled again. -/
structure Lazily (kids : ν → List ν) (root : ν) (l : List (Event Nat ν)) : Prop where
  first : l[0]? = some (.called root)
  opened_iff : ∀ i n, l[i + 1]? = some (.opened n) ↔ l[i]? = some (.called n)
  produced : ∀ i n j, l[i + 1]? = some (.produced n j) → l[i]? = some (.opened n)
  pulled : ∀ (i k : Nat) (m : Option ν), l[i]? = some (.pulled k m) →
    k < i ∧ ∃ n, l[k]? = some (.opened n)
  dropped : ∀ k n, l[k]? = some (.opened n) → Dropped l k → answers k l = []
  drained : ∀ k n, l[k]? = some (.opened n) → ¬ Dropped l k →
    answers k l = (kids n).map some ++ [none]
  siblings : ∀ (i q r : Nat) (m : Option ν) (n : ν), l[i]? = some (.pulled r m) →
    l[q]? = some (.opened n) → r < q → q < i → Dropped l q ∨ ∃ j < i, l[j]? = some (.pulled q none)

theorem Written.lazily {kids : ν → List ν} {root : ν} {l : List (Event Nat ν)}
    (h : Written kids root l []) : Lazily kids root l := by
  have closed : ∀ k n, l[k]? = some (.opened n) → Closed kids l k := fun k n hn =>
    (h.closed hn).resolve_left nofun
  refine ⟨h.first, h.opened_iff, fun _ _ _ => h.produced, fun _ _ _ => h.pulled, ?_, ?_,
    fun _ _ _ _ _ => h.siblings⟩
  · intro k n hn hd
    obtain ⟨_, _, ⟨-, ha⟩ | ⟨hd', -⟩⟩ := closed k n hn
    · exact ha
    · exact absurd hd hd'
  · intro k n hn hd
    obtain ⟨m, hm, ⟨hd', -⟩ | ⟨-, ha⟩⟩ := closed k n hn
    · exact absurd hd' hd
    · rw [hn] at hm
      cases hm
      exact ha

/-- The second log goes on from the first one. Meanwhile the children of these nodes are called for,
and the nodes handed over, in this order. -/
def Continues (l l' : List (Event Nat ν)) (ns : List ν) : Prop :=
  ∃ es, l' = l ++ es ∧ es.filterMap Event.called? = ns ∧ es.filterMap Event.produced? = ns

theorem Continues.trans {l l' l'' : List (Event Nat ν)} {ms ns : List ν} (h : Continues l l' ms)
    (h' : Continues l' l'' ns) : Continues l l'' (ms ++ ns) := by
  obtain ⟨es, rfl, rfl, hp⟩ := h
  obtain ⟨fs, rfl, rfl, hp'⟩ := h'
  exact ⟨es ++ fs, List.append_assoc l es fs, List.filterMap_append,
    by rw [List.filterMap_append, hp, hp']⟩

theorem continues_produced (l : List (Event Nat ν)) (n : ν) (j : Nat) :
    Continues l (l ++ [.called n] ++ [.opened n] ++ [.produced n j]) [n] :=
  ⟨[.called n, .opened n, .produced n j], by simp, rfl, rfl⟩

theorem continues_pulled (l : List (Event Nat ν)) (k : Nat) (m : Option ν) :
    Continues l (l ++ [.pulled k m]) [] :=
  ⟨[.pulled k m], rfl, rfl, rfl⟩

/-- A traversal of a forest adds to the log. It calls for the children of the nodes that are left
one after the other, and hands them over in the same order. -/
theorem Forest.continues_perform {prunes : List (ν × Nat) → Nat}
    {pull : Option ν → List (Event Nat ν) → List (Event Nat ν)}
    (hp : ∀ m l, Continues l (pull m l) []) (f : Forest ν) (d : Nat) (seen : List (ν × Nat))
    (l : List (Event Nat ν)) :
    Continues l (f.perform (.log ν) (fun _ => false) prunes pull d seen l)
      ((f.remains (fun _ => false) prunes d seen).map Prod.fst) := by
  induction f generalizing d seen l pull with
  | nil => exact hp none l
  | cons n below later ihb ihl =>
    have hn := (hp (some n) l).trans (continues_produced _ n (prunes (seen ++ [(n, d)])))
    simp only [perform, Bool.false_eq_true, if_false]
    by_cases hz : prunes (seen ++ [(n, d)]) = 0
    · rw [remains_kept below later rfl hz, List.map_cons, List.map_append]
      simp only [hz, if_true] at hn ⊢
      apply hn.trans
      apply Continues.trans _ (ihl hp d _ _)
      apply ihb
      exact fun m l' => continues_pulled l' _ m
    · rw [remains_pruned below later rfl hz, List.map_cons]
      simp only [hz, if_false]
      exact hn.trans (ihl hp d _ _)

end PullStream
