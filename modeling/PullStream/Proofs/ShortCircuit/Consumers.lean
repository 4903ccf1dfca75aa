import PullStream.Proofs.ShortCircuit.Search

/-!
# Consuming operations that answer early

`find`, `findIndex`, `some?`, `every?`, `includes`, `tryForEach` and `tryReduceWith` are scans that
differ in the answers that decide and in what is made of them. `indexOf` is a search, and `head`,
`isEmpty`, `option` and `one` make one step or two. Each has a lemma that says when it comes back and
with what; `ShortCircuits` collects them.
-/

set_option autoImplicit false

namespace PullStream

variable {W α β ε : Type}

namespace Cursor

/-! ## What is concluded from a scan -/

section Conclude

variable (l : List (α × Bool))

theorem conclude_find :
    conclude id (fun (_ : Unit) a _ => some a) id (fun _ => none) () l =
      (l.find? (·.2)).map Prod.fst := by
  induction l with
  | nil => rfl
  | cons y l ih =>
    obtain ⟨a, hit⟩ := y
    cases hit with
    | true => rfl
    | false => exact ih

theorem conclude_some :
    conclude id (fun (_ : Unit) (_ : α) _ => true) id (fun _ => false) () l = l.any (·.2) := by
  induction l with
  | nil => rfl
  | cons y l ih =>
    obtain ⟨a, hit⟩ := y
    cases hit with
    | true => rfl
    | false => exact ih

theorem conclude_every :
    conclude (!·) (fun (_ : Unit) (_ : α) _ => false) id (fun _ => true) () l = l.all (·.2) := by
  induction l with
  | nil => rfl
  | cons y l ih =>
    obtain ⟨a, holds⟩ := y
    cases holds with
    | true => exact ih
    | false => rfl

theorem conclude_try (l : List (α × Except ε Unit)) :
    conclude refuses (fun (_ : Unit) (_ : α) k => k) id .ok () l = l.forM (·.2) := by
  induction l with
  | nil => rfl
  | cons y l ih =>
    obtain ⟨a, k⟩ := y
    cases k with
    | ok => exact ih
    | error x => rfl

theorem conclude_position (i : Nat) :
    conclude id (fun i (_ : α) _ => some i) (· + 1) (fun _ => none) i l =
      (l.findIdx? (·.2)).map (i + ·) := by
  induction l generalizing i with
  | nil => rfl
  | cons y l ih =>
    obtain ⟨a, hit⟩ := y
    cases hit with
    | true => rfl
    | false => exact (ih (i + 1)).trans (findIdx?_onward i a l).symm

/-- Where the answers have no effects, they can be had from the elements. -/
theorem any_eq_any {p : α → Bool} {l : List (α × Bool)} (h : ∀ y ∈ l, y.2 = p y.1) :
    l.any (·.2) = (l.map Prod.fst).any p := by
  induction l with
  | nil => rfl
  | cons y l ih =>
    obtain ⟨hy, hl⟩ := List.forall_mem_cons.mp h
    rw [List.any_cons, List.map_cons, List.any_cons, hy, ih hl]

end Conclude

/-! ## A few steps -/

/-- One whole step after the other, none of which panics. -/
inductive Steps : Cursor W α → W → List (Step α) → Cursor W α → W → Prop
  | nil {c : Cursor W α} {w : W} : Steps c w [] c w
  | cons {c d e : Cursor W α} {w v t : W} {x : Step α} {xs : List (Step α)}
      (hs : Settles (c.step · w) (.ok x, d, v)) (h : Steps d v xs e t) : Steps c w (x :: xs) e t

variable {c d e : Cursor W α} {w v t : W}

theorem lasting_next (c : Cursor W α) (w : W) : Lasting (c.next · w) := (lasting_step c w).map _

theorem settles_next_iff {o : Option α} :
    Settles (c.next · w) (.ok o, e, t) ↔ ∃ x, c.Steps w [x] e t ∧ o = x.toOption := by
  refine ((lasting_step c w).settles_map_iff _ _).trans ⟨?_, ?_⟩
  · rintro ⟨⟨p | x, e, t⟩, hs, hx⟩ <;> cases hx
    exact ⟨x, .cons hs .nil, rfl⟩
  · rintro ⟨x, _ | ⟨hs, _ | _⟩, rfl⟩
    exact ⟨_, hs, rfl⟩

theorem lasting_pair (c : Cursor W α) (w : W) : Lasting (c.pair · w) := by
  intro fuel x (h : c.pair fuel w = some x)
  rw [pair] at h
  rcases hn : c.next fuel w with _ | ⟨p | a, d, v⟩ <;> rw [hn] at h
  · cases h
  · cases h
    have hs := lasting_next c w fuel _ hn
    exact settles_of_both hs hs fun fuel hf _ => by simp only [pair, hf]
  · have hs := lasting_next c w fuel _ hn
    have ht := (lasting_next d v).map _ fuel _ h
    exact settles_of_both hs ht fun fuel hf hg => by simp only [pair, hf, hg]

theorem settles_pair_iff {a b : Option α} :
    Settles (c.pair · w) (.ok (a, b), e, t) ↔
      ∃ x y, c.Steps w [x, y] e t ∧ a = x.toOption ∧ b = y.toOption := by
  constructor
  · intro h
    obtain ⟨fuel, h⟩ := h.comes
    rw [pair] at h
    rcases hn : c.next fuel w with _ | ⟨p | o, d, v⟩ <;> rw [hn] at h
    · cases h
    · cases h
    · obtain ⟨⟨p | o', f, u⟩, hm, hr⟩ := Option.map_eq_some_iff.mp h <;> cases hr
      obtain ⟨x, _ | ⟨hx, _ | _⟩, rfl⟩ := settles_next_iff.mp (lasting_next c w fuel _ hn)
      obtain ⟨y, _ | ⟨hy, _ | _⟩, rfl⟩ := settles_next_iff.mp (lasting_next _ _ fuel _ hm)
      exact ⟨x, y, .cons hx (.cons hy .nil), rfl, rfl⟩
  · rintro ⟨x, y, _ | ⟨hx, h⟩, rfl, rfl⟩
    have hn := settles_next_iff.mpr ⟨x, .cons hx .nil, rfl⟩
    have hm := settles_next_iff.mpr ⟨y, h, rfl⟩
    exact settles_of_both hn hm fun fuel hf hg => by
      simp only [pair, hf, hg]
      rfl

/-- There is nothing to be found where there is nothing. -/
theorem searches_empty (same : α → Act W Bool) (start : Nat) (w : W) :
    ∃ m, (empty : Cursor W α).Searches same start w m [] none .empty w := by
  have hs : Settles ((empty : Cursor W α).step · w) (.ok .done, .empty, w) := settles_step_done rfl
  cases start with
  | zero => exact ⟨[], .reached .nil .enough (.ended hs)⟩
  | succ before => exact ⟨[⟨w, .ok .done, w⟩], .short (.cons hs .nil) .short⟩

end Cursor

namespace Stream

variable {s : Stream W α} {w w' : W}

/-! ## One step or two -/

theorem lasting_session
    (use : Nat → Cursor W α → W → Option (Except Panic β × Cursor W α × W))
    (hl : ∀ c v, s.cursor w = (.ok c, v) → Lasting (use · c v)) :
    Lasting fun fuel => s.session (use fuel) w := by
  intro fuel x h
  unfold session at h ⊢
  rcases hc : s.cursor w with ⟨p | c, v⟩ <;> rw [hc] at h
  · cases h
    exact ⟨0, fun _ _ => rfl⟩
  · exact (hl c v hc).map _ fuel x h

theorem settles_andThen_pure_iff {x : Nat → Run W α} (hl : Lasting (x · w)) (f : α → β) {r : β} :
    Settles (fun fuel => (x fuel).andThen (fun a => pure (f a)) w) (.ok r, w') ↔
      ∃ a, Settles (x · w) (.ok a, w') ∧ r = f a := by
  have hm : ∀ fuel, (x fuel).andThen (fun a => pure (f a)) w =
      (x fuel w).map fun y => (y.1.map f, y.2) := by
    intro fuel
    unfold Run.andThen
    rcases x fuel w with _ | ⟨p | a, v⟩ <;> rfl
  simp only [hm, hl.settles_map_iff]
  constructor
  · rintro ⟨⟨p | a, v⟩, ha, hx⟩ <;> cases hx
    exact ⟨a, ha, rfl⟩
  · rintro ⟨a, ha, rfl⟩
    exact ⟨_, ha, rfl⟩

/-- One session of as many steps. -/
def Steps (s : Stream W α) (w : W) (xs : List (Step α)) (w' : W) : Prop :=
  ∃ c v e, s.cursor w = (.ok c, v) ∧ c.Steps v xs e w'

theorem lasting_head (s : Stream W α) (w : W) : Lasting (s.head · w) :=
  lasting_session Cursor.next fun c v _ => Cursor.lasting_next c v

theorem settles_head_iff {o : Option α} :
    Settles (s.head · w) (.ok o, w') ↔ ∃ x, s.Steps w [x] w' ∧ o = x.toOption := by
  refine (settles_session_iff Cursor.next fun _ => Cursor.lasting_next _ _).trans ?_
  simp only [Cursor.settles_next_iff]
  constructor
  · rintro ⟨c, v, e, hc, x, hx, rfl⟩
    exact ⟨x, ⟨c, v, e, hc, hx⟩, rfl⟩
  · rintro ⟨x, ⟨c, v, e, hc, hx⟩, rfl⟩
    exact ⟨c, v, e, hc, x, hx, rfl⟩

theorem settles_isEmpty_iff {r : Bool} :
    Settles (s.isEmpty · w) (.ok r, w') ↔
      if s.knownEmpty then r = true ∧ w' = w else ∃ x, s.Steps w [x] w' ∧ r = x.isDone := by
  cases hk : s.knownEmpty with
  | true =>
    have he : (s.isEmpty · w) = fun _ => some (.ok true, w) := by
      funext fuel
      rw [isEmpty, hk]
      rfl
    rw [he, if_pos rfl]
    constructor
    · intro h
      obtain ⟨_, h⟩ := h.comes
      cases h
      exact ⟨rfl, rfl⟩
    · rintro ⟨rfl, rfl⟩
      exact ⟨0, fun _ _ => rfl⟩
  | false =>
    have he : (s.isEmpty · w) = fun fuel => (s.head fuel).andThen (fun a => pure a.isNone) w := by
      funext fuel
      rw [isEmpty, hk]
      rfl
    rw [he, if_neg Bool.false_ne_true, settles_andThen_pure_iff (lasting_head s w)]
    simp only [settles_head_iff]
    constructor
    · rintro ⟨_, ⟨x, hx, rfl⟩, rfl⟩
      exact ⟨x, hx, by cases x <;> rfl⟩
    · rintro ⟨x, hx, rfl⟩
      exact ⟨_, ⟨x, hx, rfl⟩, by cases x <;> rfl⟩

/-- What is made of the first two elements. -/
theorem settles_pair_answer_iff (f : Option α × Option α → β) {r : β} :
    Settles (fun fuel => (s.session (Cursor.pair fuel)).andThen (fun x => pure (f x)) w)
        (.ok r, w') ↔
      ∃ x y, s.Steps w [x, y] w' ∧ r = f (x.toOption, y.toOption) := by
  rw [settles_andThen_pure_iff (lasting_session Cursor.pair fun c v _ => Cursor.lasting_pair c v)]
  simp only [settles_session_iff Cursor.pair fun _ => Cursor.lasting_pair _ _]
  constructor
  · rintro ⟨⟨a, b⟩, ⟨c, v, e, hc, h⟩, rfl⟩
    obtain ⟨x, y, hx, rfl, rfl⟩ := Cursor.settles_pair_iff.mp h
    exact ⟨x, y, ⟨c, v, e, hc, hx⟩, rfl⟩
  · rintro ⟨x, y, ⟨c, v, e, hc, hx⟩, rfl⟩
    exact ⟨_, ⟨c, v, e, hc, Cursor.settles_pair_iff.mpr ⟨x, y, hx, rfl, rfl⟩⟩, rfl⟩

/-! ## Scans -/

theorem settles_some_iff (p : α → Act W Bool) {r : Bool} :
    Settles (s.some? · p w) (.ok r, w') ↔ ∃ l x, s.Scans p id w l x w' ∧ r = l.any (·.2) := by
  simp only [← Cursor.conclude_some]
  exact settles_scanning_iff fun _ _ => rfl

theorem settles_findIndex_iff (p : α → Act W Bool) {r : Option Nat} :
    Settles (s.findIndex · p w) (.ok r, w') ↔
      ∃ l x, s.Scans p id w l x w' ∧ r = l.findIdx? (·.2) := by
  have h : ∀ l : List (α × Bool), l.findIdx? (·.2) =
      Cursor.conclude id (fun i _ _ => some i) (· + 1) (fun _ => none) 0 l := by
    intro l
    rw [Cursor.conclude_position]
    simp only [Nat.zero_add, Option.map_id']
  simp only [h]
  exact settles_scanning_iff fun _ _ => rfl

/-! ## Searches -/

/-- One session that searches. -/
def Searches (s : Stream W α) (same : α → Act W Bool) (start : Nat) (w : W) (m : List (Pace W α))
    (l : List (α × Bool)) (r : Option Nat) (w' : W) : Prop :=
  ∃ c v e, s.cursor w = (.ok c, v) ∧ c.Searches same start v m l r e w'

variable {eq : α → α → Act W Bool} {a : α} {most : Option Nat} {start : Nat} {r : Option Nat}

theorem settles_indexOf_iff_search (hs : s.Strides) :
    Settles (s.indexOf most · eq a start w) (.ok r, w') ↔ ∃ c v e, s.cursor w = (.ok c, v) ∧
      Settles (fun fuel => c.search most fuel (eq · a) start v) (.ok r, e, w') :=
  settles_session_iff (Cursor.search most · (eq · a) start) fun hc =>
    Cursor.lasting_search (s.cursor_strides hs hc) (s.cursor_inBounds hc) most (eq · a) start _

theorem settles_indexOf_iff (hs : s.Strides) (hf : Cursor.Fits most start) :
    Settles (s.indexOf most · eq a start w) (.ok r, w') ↔
      ∃ m l, s.Searches (eq · a) start w m l r w' ∧ Cursor.Fits most (start + l.length) := by
  rw [settles_indexOf_iff_search hs]
  constructor
  · rintro ⟨c, v, e, hc, h⟩
    have hc' := s.cursor_strides hs hc
    obtain ⟨m, l, hl, hf⟩ := (Cursor.settles_search_iff hc' (s.cursor_inBounds hc) hf).mp h
    exact ⟨m, l, ⟨c, v, e, hc, hl⟩, hf⟩
  · rintro ⟨m, l, ⟨c, v, e, hc, hl⟩, hf⟩
    exact ⟨c, v, e, hc, hl.settles (s.cursor_strides hs hc) (s.cursor_inBounds hc) hf⟩

theorem settles_indexOf_empty (eq : α → α → Act W Bool) (a : α) (start : Nat) (w : W) :
    Settles ((empty : Stream W α).indexOf none · eq a start w) (.ok none, w) := by
  obtain ⟨m, hm⟩ := Cursor.searches_empty (eq · a) start w
  have he : (empty : Stream W α).Strides := trivial
  exact (settles_indexOf_iff he (Cursor.fits_none _)).mpr
    ⟨m, [], ⟨_, _, _, rfl, hm⟩, Cursor.fits_none _⟩

theorem settles_indexOf_skipping_iff (hs : s.Strides) :
    Settles (s.indexOf none · eq a start w) (.ok r, w') ↔
      ∃ r₀, Settles ((skipping start s).indexOf none · eq a 0 w) (.ok r₀, w') ∧
        r = r₀.map (start + ·) := by
  have hk : (skipping start s).Strides := trivial
  rw [settles_indexOf_iff_search hs]
  constructor
  · rintro ⟨c, v, e, hc, h⟩
    obtain ⟨r₀, e, h, hr⟩ := (Cursor.settles_search_tail_iff (s.cursor_strides hs hc)
      (s.cursor_inBounds hc)).mp ⟨e, h⟩
    have ht : (skipping start s).cursor w = (.ok (.tail start c), v) := by
      rw [cursor, Act.andThen, hc]
      rfl
    exact ⟨r₀, (settles_indexOf_iff_search hk).mpr ⟨_, v, e, ht, h⟩, hr⟩
  · rintro ⟨r₀, h, hr⟩
    obtain ⟨d, v, e, ht, h⟩ := (settles_indexOf_iff_search hk).mp h
    obtain ⟨c, u, hc, hd⟩ := Act.andThen_ok ht
    cases hd
    obtain ⟨e, h⟩ := (Cursor.settles_search_tail_iff (s.cursor_strides hs hc)
      (s.cursor_inBounds hc)).mpr ⟨r₀, e, h, hr⟩
    exact ⟨c, _, e, hc, h⟩

/-- To search from a position on is to search the tail from its beginning. -/
theorem settles_indexOf_tail_iff (hs : s.Strides) :
    Settles (s.indexOf none · eq a start w) (.ok r, w') ↔
      ∃ r₀, Settles ((s.tail start).indexOf none · eq a 0 w) (.ok r₀, w') ∧
        r = r₀.map (start + ·) := by
  by_cases hn : start = 0
  · subst hn
    simp only [tail_zero, Nat.zero_add, Option.map_id']
    exact ⟨fun h => ⟨r, h, rfl⟩, fun ⟨_, h, hr⟩ => hr ▸ h⟩
  by_cases hk : s.knownEmpty
  · obtain rfl : s = .empty := by
      cases s <;> first | rfl | cases hk
    have ht : (empty : Stream W α).tail start = .empty := by rw [tail, if_pos (by simp [hk])]
    rw [ht]
    constructor
    · intro h
      cases h.unique (settles_indexOf_empty eq a start w)
      exact ⟨none, settles_indexOf_empty eq a 0 w, rfl⟩
    · rintro ⟨r₀, h, rfl⟩
      cases h.unique (settles_indexOf_empty eq a 0 w)
      exact settles_indexOf_empty eq a start w
  · have ht : s.tail start = .skipping start s := by rw [tail, if_neg (by simp [hn, hk])]
    rw [ht]
    exact settles_indexOf_skipping_iff hs

/-! ## All of them -/

/-- What the consuming operations that can answer early return, and what they take for it. -/
structure ShortCircuits (s : Stream W α) : Prop where
  find (p : α → Act W Bool) (w w' : W) (o : Option α) :
    Settles (s.find · p w) (.ok o, w') ↔
      ∃ l x, s.Scans p id w l x w' ∧ o = (l.find? (·.2)).map Prod.fst
  findIndex (p : α → Act W Bool) (w w' : W) (r : Option Nat) :
    Settles (s.findIndex · p w) (.ok r, w') ↔ ∃ l x, s.Scans p id w l x w' ∧ r = l.findIdx? (·.2)
  some (p : α → Act W Bool) (w w' : W) (r : Bool) :
    Settles (s.some? · p w) (.ok r, w') ↔ ∃ l x, s.Scans p id w l x w' ∧ r = l.any (·.2)
  every (p : α → Act W Bool) (w w' : W) (r : Bool) :
    Settles (s.every? · p w) (.ok r, w') ↔ ∃ l x, s.Scans p (!·) w l x w' ∧ r = l.all (·.2)
  /-- What equals what is for `eq` to say, which may be any relation and have effects. -/
  includes (eq : α → α → Act W Bool) (a : α) (w w' : W) (r : Bool) :
    Settles (s.includes · eq a w) (.ok r, w') ↔
      ∃ l x, s.Scans (eq · a) id w l x w' ∧ r = l.any (·.2)
  /-- Without effects that is whether one of the elements taken equals the value. -/
  member {eq : α → α → Bool} {a : α} {w w' : W} {l : List (α × Bool)} {x : Step α}
      (h : s.Scans (fun b => pure (eq b a)) id w l x w') :
    l.any (·.2) = (l.map Prod.fst).any (eq · a)
  tryForEach {ε : Type} (f : α → Act W (Except ε Unit)) (w w' : W) (r : Except ε Unit) :
    Settles (s.tryForEach · f w) (.ok r, w') ↔
      ∃ l x, s.Scans f Cursor.refuses w l x w' ∧ r = l.forM (·.2)
  tryReduceWith {β ε : Type} (combine : β → α → Act W (Except ε β)) (b : β) (w w' : W)
      (r : Except ε β) :
    Settles (s.tryReduceWith · b combine w) (.ok r, w') ↔ ∃ l, s.Reduces combine b w l r w'
  /-- The value or refusal that comes back is the one that `combine` gave last. -/
  last {β ε : Type} {combine : β → α → Act W (Except ε β)} {b : β} {w w' : W}
      {l : List (α × Except ε β)} {r : Except ε β} (h : s.Reduces combine b w l r w') :
    r = (l.getLast?.map Prod.snd).getD (.ok b)
  /-- Without effects that is the fold over the list of the elements. -/
  folded {β ε : Type} {g : β → α → Except ε β} {b : β} {w w' : W} {l : List (α × Except ε β)}
      {r : Except ε β} (h : s.Reduces (fun b a => pure (g b a)) b w l r w') :
    r = (l.map Prod.fst).foldlM g b
  /-- A counter of positions that ends at `most` only stands in the way of a search that takes more
  elements. -/
  indexOf (eq : α → α → Act W Bool) (a : α) {most : Option Nat} {start : Nat}
      (hf : Cursor.Fits most start) (w w' : W) (r : Option Nat) :
    Settles (s.indexOf most · eq a start w) (.ok r, w') ↔
      ∃ m l, s.Searches (eq · a) start w m l r w' ∧ Cursor.Fits most (start + l.length)
  /-- The elements of `l` are those from `start` on, each with the answer about it. -/
  least {same : α → Act W Bool} {start : Nat} {w w' : W} {m : List (Pace W α)}
      {l : List (α × Bool)} {r : Option Nat} (h : s.Searches same start w m l r w') (i : Nat) :
    r = .some i ↔ IsLeast {j | start ≤ j ∧ ∃ b, l[j - start]? = .some (b, true)} i
  /-- Without effects that is the least position whose element equals the value. -/
  equal {eq : α → α → Bool} {a : α} {start : Nat} {w w' : W} {m : List (Pace W α)}
      {l : List (α × Bool)} {r : Option Nat}
      (h : s.Searches (fun b => pure (eq b a)) start w m l r w') (i : Nat) :
    r = .some i ↔
      IsLeast {j | start ≤ j ∧ ∃ b, (Cursor.elements m l)[j]? = .some b ∧ eq b a = true} i
  /-- A hit takes the elements up to it, those that are left out included. -/
  taken {same : α → Act W Bool} {start i : Nat} {w w' : W} {m : List (Pace W α)}
      {l : List (α × Bool)} (h : s.Searches same start w m l (.some i) w') :
    start ≤ i ∧ m.length + l.length = i + 1
  tail (eq : α → α → Act W Bool) (a : α) (start : Nat) (w w' : W) (r : Option Nat) :
    Settles (s.indexOf none · eq a start w) (.ok r, w') ↔
      ∃ r₀, Settles ((s.tail start).indexOf none · eq a 0 w) (.ok r₀, w') ∧
        r = r₀.map (start + ·)
  head (w w' : W) (o : Option α) :
    Settles (s.head · w) (.ok o, w') ↔ ∃ x, s.Steps w [x] w' ∧ o = x.toOption
  isEmpty (w w' : W) (r : Bool) :
    Settles (s.isEmpty · w) (.ok r, w') ↔
      if s.knownEmpty then r = true ∧ w' = w else ∃ x, s.Steps w [x] w' ∧ r = x.isDone
  option (w w' : W) (r : Except CardinalityError (Option α)) :
    Settles (s.option · w) (.ok r, w') ↔
      ∃ x y, s.Steps w [x, y] w' ∧ r = atMostOne x.toOption y.toOption
  one (w w' : W) (r : Except CardinalityError α) :
    Settles (s.one · w) (.ok r, w') ↔
      ∃ x y, s.Steps w [x, y] w' ∧ r = exactlyOne x.toOption y.toOption

/-- On every stream whose own suppliers leave elements out one by one, these operations return what
the scan of the elements returns, and stop at the element that decides. -/
theorem consumers_short_circuit (s : Stream W α) (hs : s.Strides) : s.ShortCircuits where
  find p w w' o := by
    simp only [← Cursor.conclude_find]
    exact settles_scanning_iff fun _ _ => rfl
  findIndex p w w' r := settles_findIndex_iff p
  some p w w' r := settles_some_iff p
  every p w w' r := by
    simp only [← Cursor.conclude_every]
    refine settles_scanning_iff fun _ a => congrArg (p a).andThen (funext fun holds => ?_)
    cases holds <;> rfl
  includes eq a w w' r := settles_some_iff (eq · a)
  member {eq a w w' l x} h := by
    obtain ⟨c, v, m, e, -, h, -⟩ := h
    exact Cursor.any_eq_any (p := (eq · a)) h.answers
  tryForEach f w w' r := by
    simp only [← Cursor.conclude_try]
    refine settles_scanning_iff fun _ a => congrArg (f a).andThen (funext fun k => ?_)
    cases k <;> rfl
  tryReduceWith combine b w w' r := settles_reducing_iff
  last h := by
    obtain ⟨c, v, m, e, -, h, -⟩ := h
    exact h.last
  folded h := by
    obtain ⟨c, v, m, e, -, h, -⟩ := h
    exact h.foldlM
  indexOf eq a most start hf w w' r := settles_indexOf_iff hs hf
  least h i := by
    obtain ⟨c, v, e, -, h⟩ := h
    exact h.least i
  equal {eq a start w w' m l r} h i := by
    obtain ⟨c, v, e, -, h⟩ := h
    have ht : {j | start ≤ j ∧ ∃ b, (Cursor.elements m l)[j]? = .some b ∧ eq b a = true} =
        {j | start ≤ j ∧ ∃ b, l[j - start]? = .some (b, true)} :=
      Set.ext fun j => and_congr_right fun hj => (h.told_iff (p := (eq · a)) hj).symm
    rw [ht]
    exact h.least i
  taken h := by
    obtain ⟨c, v, e, -, h⟩ := h
    exact h.taken
  tail eq a start w w' r := settles_indexOf_tail_iff hs
  head w w' o := settles_head_iff
  isEmpty w w' r := settles_isEmpty_iff
  option w w' r := settles_pair_answer_iff fun x => atMostOne x.1 x.2
  one w w' r := settles_pair_answer_iff fun x => exactlyOne x.1 x.2

def counter : Source W Nat Nat where
  pull n w := (.ok (.yield n), n + 1, w)
  jump := none

/-- All numbers, without an end. -/
def naturals : Stream W Nat := .source (Act.done 0) counter

/-- The search stops at the first hit, and nothing behind it is asked about. -/
theorem consumers_short_circuit_naturals :
    (naturals : Stream (List Nat) Nat).Strides ∧
      Settles (naturals.find · (fun n log => (.ok (decide (2 ≤ n)), log ++ [n])) [])
        (.ok (some 2), [0, 1, 2]) := by
  have hs : (naturals : Stream (List Nat) Nat).Strides := rfl
  refine ⟨hs, ((consumers_short_circuit naturals hs).find _ _ _ _).mpr ?_⟩
  refine ⟨[(0, false), (1, false), (2, true)], .yield 2, scans_iff.mpr ?_, rfl⟩
  refine ⟨.source counter false 0, [], .source counter false 3, rfl, ?_⟩
  exact .onward (Cursor.settles_step_yield rfl) rfl rfl <|
    .onward (Cursor.settles_step_yield rfl) rfl rfl <|
    .decided (Cursor.settles_step_yield rfl) rfl rfl

end Stream

end PullStream
