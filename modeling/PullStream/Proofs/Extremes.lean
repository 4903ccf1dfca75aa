import PullStream.Proofs.Folding
import PullStream.Reduction

/-!
# Least and greatest elements

Folds that keep the lesser or the greater of two elements come to one of the least or greatest ones,
and ties decide which: what is kept is told from its equals by its place in the stream. One rule is
behind all of them. A fold keeps one element and shows it the next, which displaces it or not. At
the end the element is left that displaces all those before it and is displaced by none behind it.
On ties the lesser of two is the one that was there and the greater the one that is new. So a fold
from the left keeps the first of the least and the last of the greatest, and one from the right,
which meets the elements the other way round, the last of the least and the first of the greatest.
-/

set_option autoImplicit false

namespace PullStream

variable {W α β : Type}

/-! ## Places in a list -/

/-- The element is in the list, all before it and all behind it being as said. -/
def Placed (before behind : α → Prop) (xs : List α) (a : α) : Prop :=
  ∃ l r, xs = l ++ a :: r ∧ (∀ b ∈ l, before b) ∧ ∀ b ∈ r, behind b

theorem placed_cons_iff {before behind : α → Prop} {a x : α} {xs : List α} :
    Placed before behind (a :: xs) x ↔
      (x = a ∧ ∀ b ∈ xs, behind b) ∨ (before a ∧ Placed before behind xs x) := by
  constructor
  · rintro ⟨_ | ⟨b, l⟩, r, he, hl, hr⟩
    · cases he
      exact .inl ⟨rfl, hr⟩
    · cases he
      obtain ⟨hb, hl⟩ := List.forall_mem_cons.mp hl
      exact .inr ⟨hb, l, r, rfl, hl, hr⟩
  · rintro (⟨rfl, hr⟩ | ⟨ha, l, r, rfl, hl, hr⟩)
    · exact ⟨[], xs, rfl, nofun, hr⟩
    · exact ⟨a :: l, r, rfl, List.forall_mem_cons.mpr ⟨ha, hl⟩, hr⟩

theorem Placed.of_reverse {before behind : α → Prop} {xs : List α} {a : α}
    (h : Placed before behind xs.reverse a) : Placed behind before xs a := by
  obtain ⟨l, r, hx, hl, hr⟩ := h
  refine ⟨r.reverse, l.reverse, ?_, by simpa using hr, by simpa using hl⟩
  simpa using congrArg List.reverse hx

/-- Ties need not be equal. -/
structure TotalPreorder (le : α → α → Bool) : Prop where
  total : ∀ a b, le a b = true ∨ le b a = true
  trans : ∀ {a b c}, le a b = true → le b c = true → le a c = true

section Extremes

variable (le : α → α → Bool)

def FirstLeast (xs : List α) (a : α) : Prop :=
  Placed (fun b => le b a = false) (fun b => le a b = true) xs a

def LastLeast (xs : List α) (a : α) : Prop :=
  Placed (fun b => le a b = true) (fun b => le b a = false) xs a

def FirstGreatest (xs : List α) (a : α) : Prop :=
  Placed (fun b => le a b = false) (fun b => le b a = true) xs a

def LastGreatest (xs : List α) (a : α) : Prop :=
  Placed (fun b => le b a = true) (fun b => le a b = false) xs a

end Extremes

/-! ## Displacement -/

/-- The second element if it displaces the first. -/
def preferring (cedes : α → α → Bool) (a b : α) : α := if cedes a b then b else a

/-- `cedes a b` says that `a` is displaced by `b`. What displaces an element displaces all that this
one has displaced or has withstood. -/
structure Displacing (cedes : α → α → Bool) : Prop where
  trans : ∀ {a b c}, cedes a b = true → cedes b c = true → cedes a c = true
  covers : ∀ {a b c}, cedes a b = false → cedes a c = true → cedes b c = true

/-- The element displaces all before it, and none behind it displaces it. -/
def Prevails (cedes : α → α → Bool) (xs : List α) (a : α) : Prop :=
  Placed (fun b => cedes b a = true) (fun b => cedes a b = false) xs a

section Displacing

variable {cedes : α → α → Bool}

theorem prevails_singleton (cedes : α → α → Bool) (a : α) : Prevails cedes [a] a :=
  ⟨[], [], rfl, nofun, nofun⟩

theorem Prevails.snoc (ho : Displacing cedes) {xs : List α} {a : α} (h : Prevails cedes xs a)
    (b : α) : Prevails cedes (xs ++ [b]) (preferring cedes a b) := by
  obtain ⟨l, r, rfl, hl, hr⟩ := h
  cases hb : cedes a b with
  | false =>
    refine ⟨l, r ++ [b], by simp [preferring, hb], ?_, ?_⟩ <;>
      simp only [preferring, hb, Bool.false_eq_true, if_false]
    · exact hl
    · exact List.forall_mem_append.mpr ⟨hr, by simpa using hb⟩
  | true =>
    refine ⟨l ++ a :: r, [], by simp [preferring, hb], ?_, nofun⟩
    simp only [preferring, hb, if_true]
    -- the new element also displaces what the old one had only withstood
    refine List.forall_mem_append.mpr ⟨fun c hc => ho.trans (hl c hc) hb, ?_⟩
    exact List.forall_mem_cons.mpr ⟨hb, fun c hc => ho.covers (hr c hc) hb⟩

theorem Prevails.foldl (ho : Displacing cedes) (xs : List α) {ys : List α} {a : α}
    (h : Prevails cedes ys a) : Prevails cedes (ys ++ xs) (xs.foldl (preferring cedes) a) := by
  induction xs generalizing ys a with
  | nil => simpa using h
  | cons b xs ih =>
    rw [List.append_cons]
    exact ih (h.snoc ho b)

/-- What a fold keeps, that begins with the first element. -/
theorem prevails_foldl (ho : Displacing cedes) (a : α) (xs : List α) :
    Prevails cedes (a :: xs) (xs.foldl (preferring cedes) a) :=
  (prevails_singleton cedes a).foldl ho xs

end Displacing

namespace Reduction

variable {le : α → α → Bool}

theorem least_eq_preferring (le : α → α → Bool) : least le = preferring fun a b => !le a b := by
  funext a b
  cases h : le a b <;> simp [least, preferring, h]

theorem greatest_eq_preferring (le : α → α → Bool) : greatest le = preferring le := rfl

theorem displacing_less (h : TotalPreorder le) : Displacing fun a b => !le a b where
  trans {a b c} hab hbc := by
    simp only [Bool.not_eq_true'] at hab hbc ⊢
    have hba := (h.total a b).resolve_left (Bool.eq_false_iff.mp hab)
    exact Bool.eq_false_iff.mpr fun hac => Bool.eq_false_iff.mp hbc (h.trans hba hac)
  covers {a b c} hab hac := by
    simp only [Bool.not_eq_true', Bool.not_eq_false'] at hab hac ⊢
    exact Bool.eq_false_iff.mpr fun hbc => Bool.eq_false_iff.mp hac (h.trans hab hbc)

theorem displacing_greater (h : TotalPreorder le) : Displacing le where
  trans := h.trans
  covers {a b _} hab hac :=
    h.trans ((h.total a b).resolve_left (Bool.eq_false_iff.mp hab)) hac

theorem firstLeast_foldl (h : TotalPreorder le) (a : α) (xs : List α) :
    FirstLeast le (a :: xs) (xs.foldl (least le) a) := by
  rw [least_eq_preferring]
  simpa [Prevails, FirstLeast] using prevails_foldl (displacing_less h) a xs

theorem lastGreatest_foldl (h : TotalPreorder le) (a : α) (xs : List α) :
    LastGreatest le (a :: xs) (xs.foldl (greatest le) a) := by
  rw [greatest_eq_preferring]
  exact prevails_foldl (displacing_greater h) a xs

end Reduction

/-! ## Folds with a function that has no effects -/

theorem Run.settles_andThen {ρ : Type} {x : Nat → Run W α} {f : α → Act W ρ} {a : α} {w v u : W}
    {r : Except Panic ρ} (hx : Settles (x · w) (.ok a, v)) (hf : f a v = (r, u)) :
    Settles (fun fuel => (x fuel).andThen (fun a => .ofAct (f a)) w) (r, u) := by
  obtain ⟨least, hl⟩ := hx
  refine ⟨least, fun fuel h => ?_⟩
  simp only [Run.andThen, hl fuel h, Run.ofAct, hf]

theorem Cursor.Gathers.folds {c e : Cursor W α} {w t : W} {l : List (Deed β α)}
    {r : Except Panic (List α)} (h : c.Gathers w l r e t) (f : β → α → β) (b : β) :
    ∃ l, c.Folds (fun b a => .done (f b a)) b w l (r.map (List.foldl f b)) e t := by
  induction h generalizing b with
  | ended hs => exact ⟨_, .ended hs⟩
  | panicked hs => exact ⟨_, .panicked hs⟩
  | @onward a _ _ _ _ _ _ _ r hs _ ih =>
    obtain ⟨l, hl⟩ := ih (f b a)
    have hr : (r.map (a :: ·)).map (List.foldl f b) = r.map (List.foldl f (f b a)) := by
      cases r <;> rfl
    rw [hr]
    exact ⟨_, .onward hs rfl hl⟩

theorem Cursor.Gathers.foldsFirst {c e : Cursor W α} {w t : W} {l : List (Deed α α)} {a : α}
    {xs : List α} (h : c.Gathers w l (.ok (a :: xs)) e t) (f : α → α → α) :
    ∃ l, c.FoldsFirst (fun b a => .done (f b a)) w l (.ok (some (xs.foldl f a))) e t := by
  generalize hr : Except.ok (a :: xs) = r at h
  cases h with
  | ended | panicked => cases hr
  | @onward b _ _ _ _ _ _ _ r hs h =>
    cases r with
    | error => cases hr
    | ok ys =>
      cases hr
      obtain ⟨l, hl⟩ := h.folds f a
      exact ⟨_, .begun hs hl⟩

namespace Stream

open Cursor Reduction

theorem foldList_pure (f : β → α → β) (xs : List α) (b : β) (w : W) :
    foldList (fun b a => .done (f b a)) xs b w = (.ok (xs.foldl f b), w) := by
  induction xs generalizing b with
  | nil => rfl
  | cons a xs ih => exact ih (f b a)

section Pure

variable {s : Stream W α} {w w' : W} {xs : List α}

theorem uses_of_toArray {r : Except Panic (List α)}
    (h : Settles (s.toArray · w) (r.map List.toArray, w')) :
    ∃ l : List (Deed β α), s.Uses Gathers w l r w' := by
  obtain ⟨l, r', hu, he⟩ := (settles_toArray_iff (β := β)).mp h
  have hr : r = r' := by
    cases r <;> cases r' <;> simp_all [Except.map]
  exact ⟨l, hr ▸ hu⟩

/-- A fold gathers the elements and combines them. -/
theorem Uses.settles_fold {l : List (Deed β α)} {r : Except Panic (List α)}
    (h : s.Uses Gathers w l r w') (f : β → α → β) (b : β) :
    Settles (fun fuel => s.fold fuel (fun b a => .done (f b a)) b w)
      (r.map (List.foldl f b), w') := by
  cases h with
  | opened hc hg =>
    obtain ⟨l, hl⟩ := hg.folds f b
    exact settles_fold_iff.mpr ⟨l, .opened hc hl⟩
  | lost hc => exact settles_fold_iff.mpr ⟨[], .lost hc⟩

theorem settles_reduceWith_pure (h : Settles (s.toArray · w) (.ok xs.toArray, w'))
    (f : β → α → β) (b : β) :
    Settles (s.reduceWith · b (fun b a => .done (f b a)) w) (.ok (xs.foldl f b), w') := by
  obtain ⟨l, hu⟩ := uses_of_toArray (r := .ok xs) h
  exact hu.settles_fold f b

theorem settles_reduce_pure {a : α} (h : Settles (s.toArray · w) (.ok (a :: xs).toArray, w'))
    (f : α → α → α) :
    Settles (s.reduce · (fun b a => .done (f b a)) w) (.ok (some (xs.foldl f a)), w') := by
  obtain ⟨_, hu⟩ := uses_of_toArray (β := α) (r := .ok (a :: xs)) h
  cases hu with
  | opened hc hg =>
    obtain ⟨l, hl⟩ := hg.foldsFirst f
    exact settles_reduce_iff.mpr ⟨l, .opened hc hl⟩

theorem settles_reduceRightWith_pure (h : Settles (s.toArray · w) (.ok xs.toArray, w'))
    (f : β → α → β) (b : β) :
    Settles (s.reduceRightWith · b (fun b a => .done (f b a)) w)
      (.ok (xs.reverse.foldl f b), w') :=
  Run.settles_andThen h (foldList_pure f xs.reverse b w')

theorem settles_reduceRight_pure {a : α} {ys : List α}
    (h : Settles (s.toArray · w) (.ok xs.toArray, w')) (hx : xs.reverse = a :: ys)
    (f : α → α → α) :
    Settles (s.reduceRight · (fun b a => .done (f b a)) w) (.ok (some (ys.foldl f a)), w') := by
  apply Run.settles_andThen h
  rw [hx]
  simp only [Act.andThen, foldList_pure, Act.pure_apply]

end Pure

/-! ## Folds that keep an extreme -/

/-- What the folds keep of the elements of a stream, and the world they leave. A start counts as the
element that is met first. -/
structure KeepsExtremes (le : α → α → Bool) (s : Stream W α) (w : W) (xs : List α) (w' : W) :
    Prop where
  reduceLeast : ∃ a, FirstLeast le xs a ∧
    Settles (s.reduce · (fun b a => .done (least le b a)) w) (.ok (some a), w')
  reduceGreatest : ∃ a, LastGreatest le xs a ∧
    Settles (s.reduce · (fun b a => .done (greatest le b a)) w) (.ok (some a), w')
  reduceRightLeast : ∃ a, LastLeast le xs a ∧
    Settles (s.reduceRight · (fun b a => .done (least le b a)) w) (.ok (some a), w')
  reduceRightGreatest : ∃ a, FirstGreatest le xs a ∧
    Settles (s.reduceRight · (fun b a => .done (greatest le b a)) w) (.ok (some a), w')
  reduceWithLeast (init : α) : ∃ a, FirstLeast le (init :: xs) a ∧
    Settles (s.reduceWith · init (fun b a => .done (least le b a)) w) (.ok a, w')
  reduceWithGreatest (init : α) : ∃ a, LastGreatest le (init :: xs) a ∧
    Settles (s.reduceWith · init (fun b a => .done (greatest le b a)) w) (.ok a, w')
  reduceRightWithLeast (init : α) : ∃ a, LastLeast le (xs ++ [init]) a ∧
    Settles (s.reduceRightWith · init (fun b a => .done (least le b a)) w) (.ok a, w')
  reduceRightWithGreatest (init : α) : ∃ a, FirstGreatest le (xs ++ [init]) a ∧
    Settles (s.reduceRightWith · init (fun b a => .done (greatest le b a)) w) (.ok a, w')

/-- From the left the first of the least and the last of the greatest elements is kept, from the
right the last of the least and the first of the greatest, whatever the stream does on the way. -/
theorem folds_keep_extremes {le : α → α → Bool} (hle : TotalPreorder le) {s : Stream W α}
    {w w' : W} {xs : List α} (hs : Settles (s.toArray · w) (.ok xs.toArray, w')) (hx : xs ≠ []) :
    s.KeepsExtremes le w xs w' := by
  obtain ⟨a, ys, rfl⟩ := List.exists_cons_of_ne_nil hx
  obtain ⟨z, zs, hz⟩ := List.exists_cons_of_ne_nil (mt List.reverse_eq_nil_iff.mp hx)
  have hr : ∀ init, (a :: ys ++ [init]).reverse = init :: z :: zs := by simp [← hz]
  exact {
    reduceLeast := ⟨_, firstLeast_foldl hle a ys, settles_reduce_pure hs _⟩
    reduceGreatest := ⟨_, lastGreatest_foldl hle a ys, settles_reduce_pure hs _⟩
    reduceRightLeast :=
      ⟨_, .of_reverse (hz ▸ firstLeast_foldl hle z zs), settles_reduceRight_pure hs hz _⟩
    reduceRightGreatest :=
      ⟨_, .of_reverse (hz ▸ lastGreatest_foldl hle z zs), settles_reduceRight_pure hs hz _⟩
    reduceWithLeast := fun init =>
      ⟨_, firstLeast_foldl hle init _, settles_reduceWith_pure hs _ init⟩
    reduceWithGreatest := fun init =>
      ⟨_, lastGreatest_foldl hle init _, settles_reduceWith_pure hs _ init⟩
    reduceRightWithLeast := fun init =>
      ⟨_, .of_reverse (hr init ▸ firstLeast_foldl hle init _),
        hz ▸ settles_reduceRightWith_pure hs _ init⟩
    reduceRightWithGreatest := fun init =>
      ⟨_, .of_reverse (hr init ▸ lastGreatest_foldl hle init _),
        hz ▸ settles_reduceRightWith_pure hs _ init⟩ }

/-- Compares entries by their keys alone. -/
def byKey (x y : Nat × String) : Bool := decide (x.1 ≤ y.1)

theorem totalPreorder_byKey : TotalPreorder byKey where
  total x y := by simpa [byKey] using Nat.le_total x.1 y.1
  trans := by
    intro x y z hxy hyz
    simp only [byKey, decide_eq_true_eq] at hxy hyz ⊢
    exact Nat.le_trans hxy hyz

def entries : List (Nat × String) := [(2, "a"), (1, "b"), (2, "c"), (1, "d")]

theorem settles_toArray_entries :
    Settles ((ofList entries : Stream Unit _).toArray · ()) (.ok entries.toArray, ()) :=
  (settles_toArray_iff (β := Unit)).mpr ⟨_, .ok entries, .opened rfl
    (.onward (settles_step_yield rfl) (.onward (settles_step_yield rfl)
      (.onward (settles_step_yield rfl) (.onward (settles_step_yield rfl)
        (.ended (settles_step_done rfl)))))), rfl⟩

theorem folds_keep_extremes_entries :
    TotalPreorder byKey ∧ entries ≠ [] ∧
      (ofList entries : Stream Unit _).KeepsExtremes byKey () entries () :=
  ⟨totalPreorder_byKey, nofun,
    folds_keep_extremes totalPreorder_byKey settles_toArray_entries nofun⟩

end Stream

end PullStream
