import PullStream.Proofs.Composition.Combinator
import PullStream.Proofs.Cursor.Surrounding
import PullStream.Proofs.Extremes
import PullStream.Proofs.Keys

/-!
# Sets and maps

What is collected without order agrees with what the stream gives in order. A set has the elements
that are left when equal ones are left out. A map has one entry for each element that is the first
of its key, and the value in it is that of the last one. What is done on the way to a map is a list
of requests (`Associates`): behind each pull the key of the element is asked for, then its value, and
only then the next element is pulled. This holds of all callbacks; only what comes of it is said of
those without effects.
-/

set_option autoImplicit false

namespace PullStream

variable {W α β κ : Type}

/-! ## First and last elements of a key -/

/-- No element before this one has its key. -/
def FirstOfKey (key : α → κ) (xs : List α) (x : α) : Prop :=
  Placed (fun b => key b ≠ key x) (fun _ => True) xs x

/-- No element behind this one has its key. -/
def LastOfKey (key : α → κ) (xs : List α) (x : α) : Prop :=
  Placed (fun _ => True) (fun b => key b ≠ key x) xs x

section Lists

variable {key : α → κ} {value : α → β} {seen : List κ} {xs : List α} {a x : α}

theorem firstOfKey_cons_iff :
    FirstOfKey key (a :: xs) x ↔ x = a ∨ key a ≠ key x ∧ FirstOfKey key xs x := by
  simp [FirstOfKey, placed_cons_iff]

theorem lastOfKey_cons_iff :
    LastOfKey key (a :: xs) x ↔ x = a ∧ (∀ b ∈ xs, key b ≠ key a) ∨ LastOfKey key xs x := by
  rw [LastOfKey, placed_cons_iff, true_and]
  refine or_congr_left (and_congr_right ?_)
  rintro rfl
  rfl

variable [DecidableEq κ]

theorem Sieve.mem_firsts_iff :
    x ∈ firsts key seen xs ↔ key x ∉ seen ∧ FirstOfKey key xs x := by
  induction xs generalizing seen with
  | nil => simp [firsts, FirstOfKey, Placed]
  | cons a xs ih =>
    rw [firstOfKey_cons_iff, firsts]
    by_cases ha : key a ∈ seen
    · rw [if_pos ha, ih]
      refine and_congr_right fun hx => ?_
      have hk : key a ≠ key x := fun he => hx (he ▸ ha)
      have hn : x ≠ a := fun he => hk (congrArg key he).symm
      simp [hn, hk]
    · rw [if_neg ha, List.mem_cons, ih, List.mem_cons, not_or, and_assoc]
      by_cases hx : x = a
      · subst hx
        simp [ha]
      · simp [hx, eq_comm, and_left_comm]

/-- What is put under a key last stays there. -/
theorem Stream.lookup_associations {m : List (κ × β)} {k : κ} {v : β} :
    (associations key value m xs).lookup k = some v ↔
      (∃ x, LastOfKey key xs x ∧ key x = k ∧ value x = v) ∨
        (∀ x ∈ xs, key x ≠ k) ∧ m.lookup k = some v := by
  induction xs generalizing m with
  | nil => simp [associations, LastOfKey, Placed]
  | cons a xs ih =>
    have ha : associations key value m (a :: xs) =
        associations key value (associate (key a) (value a) m) xs := rfl
    rw [ha, ih, List.forall_mem_cons]
    simp only [lastOfKey_cons_iff, or_and_right, exists_or, and_assoc, exists_eq_left]
    by_cases hk : key a = k
    · subst hk
      rw [lookup_associate_self]
      simp [or_comm]
    · rw [lookup_associate_of_ne (Ne.symm hk)]
      simp [hk]

end Lists

/-! ## Keeping first elements -/

namespace Cursor

variable [DecidableEq κ]

/-- The cursor leaves out the elements whose key it has seen. -/
abbrev unseen (key : α → κ) (seen : List κ) : Cursor W α → Cursor W α :=
  .distinct inferInstance (fun a => .done (key a)) seen

/-- What is made of a move of the cursor inside. -/
def keeping (key : α → κ) (seen : List κ) :
    Move α × Cursor W α × W → Move α × Cursor W α × W :=
  Moves.relay (unseen key seen) fun a c w =>
    if key a ∈ seen then (.silent, unseen key seen c, w)
    else (.yield a, unseen key (key a :: seen) c, w)

theorem unseen_surrounds (key : α → κ) (seen : List κ) :
    Surrounds (unseen key seen) (keeping (W := W) key seen) :=
  ⟨fun _ _ => rfl, fun _ _ => rfl⟩

variable {c d e : Cursor W α} {w v t : W} {l : List (Deed β α)} {r : Except Panic (List α)}

theorem Gathers.precede (hp : ∀ x, Settles (d.step · v) x → Settles (c.step · w) x)
    (h : d.Gathers v l r e t) : c.Gathers w l r e t := by
  cases h with
  | ended hs => exact .ended (hp _ hs)
  | panicked hs => exact .panicked (hp _ hs)
  | onward hs h => exact .onward (hp _ hs) h

/-- What is gathered from a cursor that keeps first elements. -/
theorem Gathers.unseen (h : c.Gathers w l r e t) (key : α → κ) (seen : List κ) :
    ∃ (l : List (Deed β α)) (e : Cursor W α),
      (unseen key seen c).Gathers w l (r.map (Sieve.firsts key seen)) e t := by
  induction h generalizing seen with
  | ended hs => exact ⟨_, _, .ended ((unseen_surrounds key seen).settles hs fun _ _ =>
      settles_step_done)⟩
  | panicked hs => exact ⟨_, _, .panicked ((unseen_surrounds key seen).settles hs fun _ _ =>
      settles_step_panic)⟩
  | @onward a c d e w v t l r hs _ ih =>
    by_cases hk : key a ∈ seen
    · obtain ⟨l, e, hl⟩ := ih seen
      have hr : (r.map (a :: ·)).map (Sieve.firsts key seen) = r.map (Sieve.firsts key seen) := by
        cases r <;> simp [Except.map, Sieve.firsts, hk]
      rw [hr]
      refine ⟨l, e, hl.precede fun x hx => ?_⟩
      refine (unseen_surrounds key seen).settles hs fun f u hf => settles_step_silent ?_ hx
      rw [hf, keeping, Move.ofStep, Moves.relay, if_pos hk]
    · obtain ⟨l, e, hl⟩ := ih (key a :: seen)
      have hr : (r.map (a :: ·)).map (Sieve.firsts key seen) =
          (r.map (Sieve.firsts key (key a :: seen))).map (a :: ·) := by
        cases r <;> simp [Except.map, Sieve.firsts, hk]
      rw [hr]
      refine ⟨_, e, .onward ?_ hl⟩
      refine (unseen_surrounds key seen).settles hs fun f u hf => settles_step_yield ?_
      rw [hf, keeping, Move.ofStep, Moves.relay, if_neg hk]

end Cursor

/-! ## Requests -/

/-- What is asked for the sake of a map. -/
inductive Ask (α : Type) where
  | pulled (x : Except Panic (Step α))
  | keyed (a : α)
  | valued (a : α)

namespace Ask

variable {ρ : Type}

/-- All that is asked for one element. -/
def turn (a : α) : List (Ask α) := [.pulled (.ok (.yield a)), .keyed a, .valued a]

/-- What is asked last, and what comes of it: nothing is asked behind the end or a panic. -/
inductive Closes : List (Ask α) → Except Panic ρ → Prop
  | ended {b : ρ} : Closes [.pulled (.ok .done)] (.ok b)
  | panicked {p : Panic} : Closes [.pulled (.error p)] (.error p)
  | keyless {a : α} {p : Panic} : Closes [.pulled (.ok (.yield a)), .keyed a] (.error p)
  | valueless {a : α} {p : Panic} : Closes (turn a) (.error p)

/-- One element has all its turn before the next one is pulled. -/
def InTurn (l : List (Ask α)) (r : Except Panic ρ) : Prop :=
  ∃ (xs : List α) (last : List (Ask α)), l = xs.flatMap turn ++ last ∧ Closes last r

theorem Closes.in_turn {l : List (Ask α)} {r : Except Panic ρ} (h : Closes l r) : InTurn l r :=
  ⟨[], l, rfl, h⟩

theorem InTurn.cons {l : List (Ask α)} {r : Except Panic ρ} (h : InTurn l r) (a : α) :
    InTurn (turn a ++ l) r := by
  obtain ⟨xs, last, rfl, hc⟩ := h
  exact ⟨a :: xs, last, by rw [List.flatMap_cons, List.append_assoc], hc⟩

end Ask

namespace Cursor

variable [DecidableEq κ]

/-- What is asked until all elements are in a map that begins with what is in `m`. -/
inductive Associates (key : α → Act W κ) (value : α → Act W β) :
    List (κ × β) → Cursor W α → W → List (Ask α) → Except Panic (List (κ × β)) → Cursor W α → W →
      Prop
  | ended {m : List (κ × β)} {c d : Cursor W α} {w v : W}
      (hs : Settles (c.step · w) (.ok .done, d, v)) :
      Associates key value m c w [.pulled (.ok .done)] (.ok m) d v
  | panicked {m : List (κ × β)} {p : Panic} {c d : Cursor W α} {w v : W}
      (hs : Settles (c.step · w) (.error p, d, v)) :
      Associates key value m c w [.pulled (.error p)] (.error p) d v
  | keyless {m : List (κ × β)} {a : α} {p : Panic} {c d : Cursor W α} {w v u : W}
      (hs : Settles (c.step · w) (.ok (.yield a), d, v)) (hk : key a v = (.error p, u)) :
      Associates key value m c w [.pulled (.ok (.yield a)), .keyed a] (.error p) d u
  | valueless {m : List (κ × β)} {a : α} {k : κ} {p : Panic} {c d : Cursor W α} {w v u t : W}
      (hs : Settles (c.step · w) (.ok (.yield a), d, v)) (hk : key a v = (.ok k, u))
      (hv : value a u = (.error p, t)) :
      Associates key value m c w (Ask.turn a) (.error p) d t
  | onward {m : List (κ × β)} {a : α} {k : κ} {b : β} {c d e : Cursor W α} {w v u t z : W}
      {l : List (Ask α)} {r : Except Panic (List (κ × β))}
      (hs : Settles (c.step · w) (.ok (.yield a), d, v)) (hk : key a v = (.ok k, u))
      (hv : value a u = (.ok b, t)) (h : Associates key value (Stream.associate k b m) d t l r e z) :
      Associates key value m c w (Ask.turn a ++ l) r e z

variable {key : α → Act W κ} {value : α → Act W β} {m : List (κ × β)} {c d e : Cursor W α}
  {w v t : W} {l : List (Ask α)} {r : Except Panic (List (κ × β))}

theorem Associates.in_turn (h : Associates key value m c w l r e t) : Ask.InTurn l r := by
  induction h with
  | ended => exact Ask.Closes.ended.in_turn
  | panicked => exact Ask.Closes.panicked.in_turn
  | keyless => exact Ask.Closes.keyless.in_turn
  | valueless => exact Ask.Closes.valueless.in_turn
  | onward _ _ _ _ ih => exact ih.cons _

/-- What is combined for a map. -/
def associating (key : α → Act W κ) (value : α → Act W β) (m : List (κ × β)) (a : α) :
    Act W (List (κ × β)) :=
  (key a).andThen fun k => (value a).andThen fun b => pure (Stream.associate k b m)

theorem folds_associating_iff :
    (∃ l, Folds (associating key value) m c w l r e t) ↔
      ∃ l, Associates key value m c w l r e t := by
  constructor
  · rintro ⟨l, h⟩
    induction h with
    | ended hs => exact ⟨_, .ended hs⟩
    | panicked hs => exact ⟨_, .panicked hs⟩
    | @refused m a p _ _ _ v _ hs hf =>
      rcases hk : key a v with ⟨q | k, u⟩ <;> simp only [associating, Act.andThen, hk] at hf
      · cases hf
        exact ⟨_, .keyless hs hk⟩
      · rcases hv : value a u with ⟨q | b, t⟩ <;> rw [hv] at hf <;> cases hf
        exact ⟨_, .valueless hs hk hv⟩
    | @onward m _ a _ _ _ _ v _ _ _ _ hs hf _ ih =>
      obtain ⟨l, hl⟩ := ih
      rcases hk : key a v with ⟨q | k, u⟩ <;> simp only [associating, Act.andThen, hk] at hf
      · cases hf
      · rcases hv : value a u with ⟨q | b, t⟩ <;> rw [hv] at hf <;> cases hf
        exact ⟨_, .onward hs hk hv hl⟩
  · rintro ⟨l, h⟩
    induction h with
    | ended hs => exact ⟨_, .ended hs⟩
    | panicked hs => exact ⟨_, .panicked hs⟩
    | keyless hs hk => exact ⟨_, .refused hs (by simp only [associating, Act.andThen, hk])⟩
    | valueless hs hk hv =>
      exact ⟨_, .refused hs (by simp only [associating, Act.andThen, hk, hv])⟩
    | onward hs hk hv _ ih =>
      obtain ⟨l, hl⟩ := ih
      exact ⟨_, .onward hs (by simp only [associating, Act.andThen, hk, hv]; rfl) hl⟩

/-- With callbacks that have no effects. -/
theorem Gathers.associates {l : List (Deed β α)} {r : Except Panic (List α)}
    (h : c.Gathers w l r e t) (key : α → κ) (value : α → β) (m : List (κ × β)) :
    ∃ l, Associates (fun a => .done (key a)) (fun a => .done (value a)) m c w l
        (r.map (Stream.associations key value m)) e t ∧
      ∀ xs, r = .ok xs → l = xs.flatMap Ask.turn ++ [.pulled (.ok .done)] := by
  induction h generalizing m with
  | ended hs =>
    refine ⟨_, .ended hs, ?_⟩
    rintro _ ⟨⟩
    rfl
  | panicked hs => exact ⟨_, .panicked hs, nofun⟩
  | @onward a _ _ _ _ _ _ _ r hs _ ih =>
    obtain ⟨l, hl, hx⟩ := ih (Stream.associate (key a) (value a) m)
    have hr : (r.map (a :: ·)).map (Stream.associations key value m) =
        r.map (Stream.associations key value (Stream.associate (key a) (value a) m)) := by
      cases r <;> rfl
    rw [hr]
    refine ⟨_, .onward hs rfl rfl hl, ?_⟩
    cases r with
    | error => exact nofun
    | ok xs =>
      rintro _ ⟨⟩
      rw [hx xs rfl, List.flatMap_cons, List.append_assoc]

end Cursor

namespace Stream

open Cursor

section Runs

variable {s : Stream W α} {w w' : W} {r : Except Panic (List α)} {l : List (Deed β α)}

theorem gathers_empty (h : (.empty : Stream W α).Uses (Gathers (β := β)) w l r w') : r = .ok [] := by
  have hd : Settles ((Cursor.empty : Cursor W α).step · w) (.ok .done, .empty, w) :=
    settles_step_done rfl
  cases h with
  | lost hc => cases hc
  | opened hc h =>
    cases hc
    cases h with
    | ended => rfl
    | panicked hs => cases hs.unique hd
    | onward hs => cases hs.unique hd

variable [DecidableEq κ]

theorem Uses.distinctBy (h : s.Uses (Gathers (β := β)) w l r w') (key : α → κ) :
    ∃ l, (s.distinctBy fun a => .done (key a)).Uses (Gathers (β := β)) w l
      (r.map (Sieve.firsts key [])) w' := by
  unfold Stream.distinctBy
  split
  · next hk =>
    obtain rfl := eq_empty hk
    obtain rfl := gathers_empty h
    exact ⟨l, h⟩
  · cases h with
    | opened hc hg =>
      obtain ⟨l, e, hl⟩ := hg.unseen key []
      exact ⟨l, .opened (by simp only [cursor, Act.andThen, hc]; rfl) hl⟩
    | lost hc => exact ⟨[], .lost (by simp only [cursor, Act.andThen, hc])⟩

theorem settles_distinctBy (h : Settles (s.toArray · w) (r.map List.toArray, w')) (key : α → κ) :
    Settles ((s.distinctBy fun a => .done (key a)).toArray · w)
      ((r.map (Sieve.firsts key [])).map List.toArray, w') := by
  obtain ⟨_, hu⟩ := uses_of_toArray (β := Unit) h
  obtain ⟨l, hl⟩ := hu.distinctBy key
  exact settles_toArray_iff.mpr ⟨l, _, hl, rfl⟩

theorem settles_toSet [DecidableEq α] (h : Settles (s.toArray · w) (r.map List.toArray, w')) :
    Settles (s.toSet · w) (r.map fun xs => (Sieve.firsts id [] xs).reverse, w') := by
  obtain ⟨_, hu⟩ := uses_of_toArray (β := List α) h
  have hf := hu.settles_fold (fun ys a => if a ∈ ys then ys else a :: ys) []
  have hr : (fun xs : List α => xs.foldl (fun ys a => if a ∈ ys then ys else a :: ys) []) =
      fun xs => (Sieve.firsts id [] xs).reverse := by
    funext xs
    rw [Sieve.foldl_insert_eq_firsts, List.append_nil]
  rwa [← hr]

theorem settles_toMap_iff {key : α → Act W κ} {value : α → Act W β}
    {r : Except Panic (List (κ × β))} :
    Settles (s.toMap · key value w) (r, w') ↔ ∃ l, s.Uses (Associates key value []) w l r w' :=
  settles_uses_iff (fun _ _ => lasting_consume _ _ _ _ _)
    (settles_combining_iff.trans folds_associating_iff)

theorem Uses.associates (h : s.Uses (Gathers (β := β)) w l r w') (key : α → κ) (value : α → β) :
    ∃ l, s.Uses (Associates (fun a => .done (key a)) (fun a => .done (value a)) []) w l
        (r.map (associations key value [])) w' ∧
      ∀ xs, r = .ok xs → l = xs.flatMap Ask.turn ++ [.pulled (.ok .done)] := by
  cases h with
  | opened hc hg =>
    obtain ⟨l, hl, hx⟩ := hg.associates key value []
    exact ⟨l, .opened hc hl, hx⟩
  | lost hc => exact ⟨[], .lost hc, nofun⟩

end Runs

/-! ## Sets and maps -/

/-- `ys` are the elements without those that came before, and `zs` are the elements of a set. -/
structure SetAgrees (xs ys zs : List α) : Prop where
  differ : ys.Nodup
  same : zs.Perm ys
  mem (x : α) : x ∈ ys ↔ x ∈ xs

/-- `ys` are the elements without those whose keys came before, and `m` are the entries of a map. -/
structure MapAgrees (key : α → κ) (value : α → β) (xs ys : List α) (m : List (κ × β)) : Prop where
  differ : (ys.map key).Nodup
  keys : (m.map Prod.fst).Perm (ys.map key)
  order : ys.Sublist xs
  first (y : α) : y ∈ ys ↔ FirstOfKey key xs y
  last (k : κ) (v : β) : (k, v) ∈ m ↔ ∃ x, LastOfKey key xs x ∧ key x = k ∧ value x = v

theorem setAgrees_firsts [DecidableEq α] (xs : List α) :
    SetAgrees xs (Sieve.firsts id [] xs) (Sieve.firsts id [] xs).reverse where
  differ := by simpa using Sieve.nodup_map_firsts id [] xs
  same := List.reverse_perm _
  mem x := by
    have h : x ∈ (Sieve.firsts id [] xs).map id ↔ x ∉ [] ∧ x ∈ xs.map id := Sieve.mem_map_firsts
    simpa using h

theorem mapAgrees_firsts [DecidableEq κ] (key : α → κ) (value : α → β) (xs : List α) :
    MapAgrees key value xs (Sieve.firsts key [] xs) (associations key value [] xs) := by
  have hn := Sieve.nodup_map_firsts key [] xs
  have hk : (associations key value [] xs).map Prod.fst = (Sieve.firsts key [] xs).map key :=
    keys_associations key value [] xs
  exact {
    differ := hn
    keys := .of_eq hk
    order := Sieve.firsts_sublist key [] xs
    first := fun y => by simp [Sieve.mem_firsts_iff]
    last := fun k v => by simp [mem_iff_lookup (hk ▸ hn), lookup_associations] }

/-- How the collections of a stream are related to one another. -/
structure Collects [DecidableEq α] [DecidableEq κ] (key : α → κ) (value : α → β)
    (s : Stream W α) : Prop where
  set {w w' : W} {xs : List α} (h : Settles (s.toArray · w) (.ok xs.toArray, w')) :
    ∃ ys zs, SetAgrees xs ys zs ∧ Settles (s.distinct.toArray · w) (.ok ys.toArray, w') ∧
      Settles (s.toSet · w) (.ok zs, w')
  map {w w' : W} {xs : List α} (h : Settles (s.toArray · w) (.ok xs.toArray, w')) :
    ∃ ys m, MapAgrees key value xs ys m ∧
      Settles ((s.distinctBy fun a => .done (key a)).toArray · w) (.ok ys.toArray, w') ∧
      Settles (s.toMap · (fun a => .done (key a)) (fun a => .done (value a)) w) (.ok m, w') ∧
      s.Uses (Associates (fun a => .done (key a)) (fun a => .done (value a)) []) w
        (xs.flatMap Ask.turn ++ [.pulled (.ok .done)]) (.ok m) w'
  /-- Where the elements cannot be had, nothing else can, and all of it fails alike. -/
  lost {w w' : W} {p : Panic} (h : Settles (s.toArray · w) (.error p, w')) :
    Settles (s.distinct.toArray · w) (.error p, w') ∧ Settles (s.toSet · w) (.error p, w') ∧
      Settles ((s.distinctBy fun a => .done (key a)).toArray · w) (.error p, w') ∧
      Settles (s.toMap · (fun a => .done (key a)) (fun a => .done (value a)) w) (.error p, w')
  /-- Whatever the callbacks do, this is all that is asked for a map. -/
  asked (key : α → Act W κ) (value : α → Act W β) (w w' : W) (r : Except Panic (List (κ × β))) :
    Settles (s.toMap · key value w) (r, w') ↔ ∃ l, s.Uses (Associates key value []) w l r w'
  /-- Each element has its turn, unless the stream could not be opened. -/
  inTurn {key : α → Act W κ} {value : α → Act W β} {w w' : W} {l : List (Ask α)}
      {r : Except Panic (List (κ × β))} (h : s.Uses (Associates key value []) w l r w') :
    (∃ p, s.cursor w = (.error p, w') ∧ l = [] ∧ r = .error p) ∨ Ask.InTurn l r

/-- A set has the elements that are left when equal ones are left out, and a map one entry for each
element that is the first of its key, with the value of the last one. For a map, the key of each
element and then its value are asked for before the next element is pulled. -/
theorem collections_agree [DecidableEq α] [DecidableEq κ] (key : α → κ) (value : α → β)
    (s : Stream W α) : s.Collects key value where
  set {w w' xs} h :=
    ⟨_, _, setAgrees_firsts xs, settles_distinctBy (r := .ok xs) h id,
      settles_toSet (r := .ok xs) h⟩
  map {w w' xs} h := by
    obtain ⟨_, hu⟩ := uses_of_toArray (β := β) (r := .ok xs) h
    obtain ⟨l, hl, hx⟩ := hu.associates key value
    obtain rfl := hx xs rfl
    exact ⟨_, _, mapAgrees_firsts key value xs, settles_distinctBy (r := .ok xs) h key,
      settles_toMap_iff.mpr ⟨_, hl⟩, hl⟩
  lost {w w' p} h := by
    obtain ⟨_, hu⟩ := uses_of_toArray (β := β) (r := .error p) h
    obtain ⟨l, hl, -⟩ := hu.associates key value
    exact ⟨settles_distinctBy (r := .error p) h id, settles_toSet (r := .error p) h,
      settles_distinctBy (r := .error p) h key, settles_toMap_iff.mpr ⟨l, hl⟩⟩
  asked _ _ _ _ _ := settles_toMap_iff
  inTurn h := by
    rcases h with ⟨-, h⟩ | hc
    · exact .inr h.in_turn
    · exact .inl ⟨_, hc, rfl, rfl⟩

/-- Of the entries with the same number the first is left, and the text of the last is kept. -/
theorem collections_agree_entries :
    Settles ((ofList entries : Stream Unit _).toArray · ()) (.ok entries.toArray, ()) ∧
      ∃ ys m, MapAgrees Prod.fst Prod.snd entries ys m ∧
        Settles (((ofList entries).distinctBy fun a => .done a.1).toArray · ()) (.ok ys.toArray, ()) ∧
        Settles ((ofList entries).toMap · (fun a => .done a.1) (fun a => .done a.2) ()) (.ok m, ()) ∧
        (2, "a") ∈ ys ∧ (2, "c") ∈ m ∧ (2, "a") ∉ m := by
  obtain ⟨ys, m, hm, hy, ht, -⟩ :=
    (collections_agree Prod.fst Prod.snd (ofList entries : Stream Unit _)).map
      settles_toArray_entries
  have hf : FirstOfKey Prod.fst entries (2, "a") :=
    ⟨[], [(1, "b"), (2, "c"), (1, "d")], rfl, nofun, fun _ _ => trivial⟩
  have hl : LastOfKey Prod.fst entries (2, "c") :=
    ⟨[(2, "a"), (1, "b")], [(1, "d")], rfl, fun _ _ => trivial, by decide⟩
  have hc := (hm.last 2 "c").mpr ⟨_, hl, rfl, rfl⟩
  have hn : (m.map Prod.fst).Nodup := hm.keys.nodup_iff.mpr hm.differ
  have ha : (2, "a") ∉ m := fun ha => by
    have he := ((mem_iff_lookup hn).mp ha).symm.trans ((mem_iff_lookup hn).mp hc)
    simp at he
  exact ⟨settles_toArray_entries, ys, m, hm, hy, ht, (hm.first _).mpr hf, hc, ha⟩

end Stream

end PullStream
