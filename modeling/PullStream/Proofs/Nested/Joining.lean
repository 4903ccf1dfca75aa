import PullStream.Proofs.Flattening
import PullStream.Proofs.Joining
import PullStream.Proofs.Nested.Laziness

/-!
# Joining nested streams

To join a nested stream is to go through the forest of its elements: a stream that is an element is
opened, and gone through to its end, before the stream around it is pulled again (`Cursor.Unrolls`).
What is written is read off that forest. A descent goes through the same forest in the same order.
It leaves away the places where a stream begins and ends, and as long as no stream is empty there is
nothing to be seen of these in a text that has commas at all levels.
-/

set_option autoImplicit false

namespace PullStream

open Cursor Moves

variable {W ι α γ : Type}

/-- The text of an element, from the texts of the elements of the stream that it is. -/
def Nested.written (text : α → String) : Nested ι α → List String → String
  | .value a, _ => text a
  | .stream _, ts => ",".intercalate ts

namespace Forest

section Texts

variable (text : α → String)

/-- The texts of elements, each that is a stream with commas between the texts of its elements. -/
def texts : Forest (Nested ι α) → List String
  | nil => []
  | cons x below later => x.written text (texts below) :: texts later

/-- The texts when the elements of a stream that is entered at its level stand in its place. -/
def splicedTexts (enters : Nat → Bool) : Nat → Forest (Nested ι α) → List String
  | _, nil => []
  | level, cons x below later =>
    (match x.entered (enters level) with
      | some _ => splicedTexts enters (level + 1) below
      | none => [x.written text (texts text below)]) ++ splicedTexts enters level later

end Texts

theorem splicedTexts_of_passed {text : α → String} {enters : Nat → Bool}
    (he : ∀ level, enters level = false) (f : Forest (Nested ι α)) (level : Nat) :
    f.splicedTexts text enters level = f.texts text := by
  induction f generalizing level with
  | nil => rfl
  | cons x below later _ ihl =>
    rw [splicedTexts, texts, he, ihl]
    cases x <;> rfl

/-- Each stream among the elements, at any depth, has an element itself. -/
def Filled : Forest (Nested ι α) → Prop
  | nil => True
  | cons x below later => (x.isStream = true → below ≠ nil) ∧ below.Filled ∧ later.Filled

section Filled

variable {text : α → String} {enters : Nat → Bool} {f : Forest (Nested ι α)}

theorem splicedTexts_ne_nil (hf : f.Filled) (h : f ≠ nil) (level : Nat) :
    f.splicedTexts text enters level ≠ [] := by
  induction f generalizing level with
  | nil => exact absurd rfl h
  | cons x below later ihb _ =>
    obtain ⟨hx, hb, -⟩ := hf
    intro hn
    rw [splicedTexts] at hn
    obtain ⟨hn, -⟩ := List.append_eq_nil_iff.mp hn
    cases he : x.entered (enters level) with
    | none =>
      rw [he] at hn
      cases hn
    | some i =>
      rw [he] at hn
      obtain rfl := Nested.eq_stream_of_entered he
      exact ihb hb (hx rfl) _ hn

/-- Between commas it does not show where a stream that has elements begins and ends. -/
theorem intercalate_splicedTexts (hf : f.Filled) (level : Nat) (before : List String) :
    ",".intercalate (before ++ f.splicedTexts text enters level) =
      ",".intercalate (before ++ f.texts text) := by
  induction f generalizing level before with
  | nil => rfl
  | cons x below later ihb ihl =>
    obtain ⟨hx, hb, hl⟩ := hf
    rw [splicedTexts, texts]
    cases he : x.entered (enters level) with
    | none =>
      have h := ihl hl level (before ++ [x.written text (below.texts text)])
      simpa using h
    | some i =>
      obtain rfl := Nested.eq_stream_of_entered he
      have hw : (Nested.stream i : Nested ι α).written text (below.texts text) =
          ",".intercalate (below.splicedTexts text enters (level + 1)) :=
        (ihb hb (level + 1) []).symm
      rw [hw, intercalate_joined (splicedTexts_ne_nil hb (hx rfl) (level + 1)), ← List.append_assoc,
        ← List.append_assoc]
      exact ihl hl level _

end Filled

end Forest

namespace Cursor

/-- The elements that a cursor has still to give, with those of the streams among them. An element
that is a stream is opened and gone through, and when it has ended the next element is pulled. -/
inductive Unrolls (book : ι → Stream W (Nested ι α)) :
    Cursor W (Nested ι α) → W → Except Panic (Forest (Nested ι α)) → W → Prop
  | ended {c d : Cursor W (Nested ι α)} {w v : W} (hs : Settles (c.step · w) (.ok .done, d, v)) :
      Unrolls book c w (.ok .nil) v
  | panicked {p : Panic} {c d : Cursor W (Nested ι α)} {w v : W}
      (hs : Settles (c.step · w) (.error p, d, v)) : Unrolls book c w (.error p) v
  | value {a : α} {c d : Cursor W (Nested ι α)} {w v t : W} {r : Except Panic (Forest (Nested ι α))}
      (hs : Settles (c.step · w) (.ok (.yield (.value a)), d, v)) (h : Unrolls book d v r t) :
      Unrolls book c w (r.map (.cons (.value a) .nil)) t
  | lost {i : ι} {p : Panic} {c d : Cursor W (Nested ι α)} {w v u : W}
      (hs : Settles (c.step · w) (.ok (.yield (.stream i)), d, v))
      (hc : (book i).cursor v = (.error p, u)) : Unrolls book c w (.error p) u
  | broken {i : ι} {p : Panic} {c d e : Cursor W (Nested ι α)} {w v u t : W}
      (hs : Settles (c.step · w) (.ok (.yield (.stream i)), d, v))
      (hc : (book i).cursor v = (.ok e, u)) (hi : Unrolls book e u (.error p) t) :
      Unrolls book c w (.error p) t
  | stream {i : ι} {c d e : Cursor W (Nested ι α)} {w v u t x : W} {below : Forest (Nested ι α)}
      {r : Except Panic (Forest (Nested ι α))}
      (hs : Settles (c.step · w) (.ok (.yield (.stream i)), d, v))
      (hc : (book i).cursor v = (.ok e, u)) (hi : Unrolls book e u (.ok below) t)
      (h : Unrolls book d t r x) : Unrolls book c w (r.map (.cons (.stream i) below)) x

end Cursor

/-- One session that goes through all elements, and through all streams among them. -/
def Stream.Unrolls (book : ι → Stream W (Nested ι α)) :
    Stream W (Nested ι α) → W → Except Panic (Forest (Nested ι α)) → W → Prop :=
  Session (Cursor.Unrolls book)

variable {book : ι → Stream W (Nested ι α)} {text : α → String} {s : Stream W (Nested ι α)}
  {c d : Cursor W (Nested ι α)} {r : Except Panic (Forest (Nested ι α))} {w v t : W}

/-! ## What is written -/

theorem Nested.text_value (fuel : Nat) (a : α) :
    Nested.text book text fuel (.value a) = pure (text a) := by
  cases fuel <;> rfl

theorem settles_text_value (a : α) (w : W) :
    Settles (Nested.text book text · (.value a) w) (.ok (text a), w) :=
  settles_of_first fun _ => rfl

theorem settles_text_stream {i : ι} {r : Except Panic (List String)}
    (h : (book i).Writes (Nested.text book text) w r t) :
    Settles (Nested.text book text · (.stream i) w) (r.map ",".intercalate, t) :=
  settles_of_next (fun _ => rfl) (h.join ",")

theorem Cursor.Unrolls.writes (h : c.Unrolls book w r t) (text : α → String) :
    c.Writes (Nested.text book text) w (r.map (·.texts text)) t := by
  induction h with
  | ended hs => exact .ended hs
  | panicked hs => exact .panicked hs
  | @value a _ _ _ v _ r hs _ ih =>
    have hw := Writes.onward hs (settles_text_value a v) ih
    cases r <;> exact hw
  | lost hs hc => exact .refused hs (settles_text_stream (.lost hc))
  | broken hs hc _ ih => exact .refused hs (settles_text_stream (.opened hc ih))
  | @stream _ _ _ _ _ _ _ _ _ _ r hs hc _ _ ihi ih =>
    have hw := Writes.onward hs (settles_text_stream (.opened hc ihi)) ih
    cases r <;> exact hw

theorem Stream.Unrolls.writes (h : s.Unrolls book w r t) (text : α → String) :
    s.Writes (Nested.text book text) w (r.map (·.texts text)) t := by
  cases h with
  | opened hc h => exact .opened hc (h.writes text)
  | lost hc => exact .lost hc

theorem Cursor.Unrolls.of_silent (ht : c.tick w = (.silent, d, v)) (h : d.Unrolls book v r t) :
    c.Unrolls book w r t := by
  cases h with
  | ended hs => exact .ended (settles_step_silent ht hs)
  | panicked hs => exact .panicked (settles_step_silent ht hs)
  | value hs h => exact .value (settles_step_silent ht hs) h
  | lost hs hc => exact .lost (settles_step_silent ht hs) hc
  | broken hs hc hi => exact .broken (settles_step_silent ht hs) hc hi
  | stream hs hc hi h => exact .stream (settles_step_silent ht hs) hc hi h

/-- A run that has written all the elements has gone through them, provided that those which have
written the texts of streams among them have done so. -/
theorem unrolls_of_consume {sep : String} {fuel pulls : Nat} {before : List String}
    {x : Except Panic String} {e : Cursor W (Nested ι α)}
    (hn : ∀ {i v y u}, Nested.text book text fuel (.stream i) v = some (y, u) →
      ∃ r, (book i).Unrolls book v r u ∧ y = r.map fun f => ",".intercalate (f.texts text))
    (h : c.consume (joining sep (Nested.text book text fuel)) (·.getD "") pulls (joined sep before)
      w = some (x, e, t)) :
    ∃ r, c.Unrolls book w r t ∧ x = r.map fun f => sep.intercalate (before ++ f.texts text) := by
  induction pulls generalizing before c w with
  | zero => cases h
  | succ pulls ih =>
    rw [consume] at h
    rcases ht : c.tick w with ⟨_ | (a | i) | _ | p, d, v⟩ <;> rw [ht] at h
    · obtain ⟨r, hr, hx⟩ := ih h
      exact ⟨r, hr.of_silent ht, hx⟩
    · simp only [joining, Nested.text_value, Run.andThen, Run.pure_apply, ← joined_snoc] at h
      obtain ⟨r, hr, rfl⟩ := ih h
      refine ⟨_, .value (settles_step_yield ht) hr, ?_⟩
      cases r <;> simp [Except.map, Forest.texts, Nested.written]
    · rcases hy : Nested.text book text fuel (.stream i) v with _ | ⟨p | y, u⟩ <;>
        simp only [joining, Run.andThen, hy, Run.pure_apply, ← joined_snoc] at h
      · cases h
      · obtain ⟨r, hr, hp⟩ := hn hy
        cases h
        cases hr with
        | @opened _ _ _ r hc hr =>
          cases r <;> cases hp
          exact ⟨_, .broken (settles_step_yield ht) hc hr, rfl⟩
        | lost hc =>
          cases hp
          exact ⟨_, .lost (settles_step_yield ht) hc, rfl⟩
      · obtain ⟨r, hr, hp⟩ := hn hy
        obtain ⟨r', hr', rfl⟩ := ih h
        cases hr with
        | @opened _ _ _ r hc hr =>
          cases r <;> cases hp
          refine ⟨_, .stream (settles_step_yield ht) hc hr hr', ?_⟩
          cases r' <;> simp [Except.map, Forest.texts, Nested.written]
        | lost hc => cases hp
    · cases h
      exact ⟨_, .ended (settles_step_done ht), by simp [getD_joined, Except.map, Forest.texts]⟩
    · cases h
      exact ⟨_, .panicked (settles_step_panic ht), rfl⟩

theorem unrolls_of_join {sep : String} {fuel pulls : Nat} {x : Except Panic String}
    (hn : ∀ {i v y u}, Nested.text book text fuel (.stream i) v = some (y, u) →
      ∃ r, (book i).Unrolls book v r u ∧ y = r.map fun f => ",".intercalate (f.texts text))
    (h : s.join pulls (Nested.text book text fuel) sep w = some (x, t)) :
    ∃ r, s.Unrolls book w r t ∧ x = r.map fun f => sep.intercalate (f.texts text) := by
  have hj : s.join pulls (Nested.text book text fuel) sep =
      s.session (Cursor.consume (joining sep (Nested.text book text fuel)) (·.getD "") pulls
        (joined sep [])) := rfl
  rw [hj, Stream.session] at h
  rcases hc : s.cursor w with ⟨p | c, v⟩ <;> rw [hc] at h
  · cases h
    exact ⟨_, .lost hc, rfl⟩
  · obtain ⟨⟨y, e, u⟩, hy, he⟩ := Option.map_eq_some_iff.mp h
    cases he
    obtain ⟨r, hr, rfl⟩ := unrolls_of_consume hn hy
    exact ⟨r, .opened hc hr, rfl⟩

theorem unrolls_of_text {fuel : Nat} {i : ι} {y : Except Panic String}
    (h : Nested.text book text fuel (.stream i) w = some (y, t)) :
    ∃ r, (book i).Unrolls book w r t ∧ y = r.map fun f => ",".intercalate (f.texts text) := by
  induction fuel generalizing i w y t with
  | zero => cases h
  | succ fuel ih => exact unrolls_of_join ih h

/-- What is written when a nested stream is joined are the texts of the forest that is gone
through. -/
theorem settles_join_iff {sep : String} {x : Except Panic String} :
    Settles (fun fuel => s.join fuel (Nested.text book text fuel) sep w) (x, t) ↔
      ∃ r, s.Unrolls book w r t ∧ x = r.map fun f => sep.intercalate (f.texts text) := by
  constructor
  · intro h
    obtain ⟨fuel, h⟩ := h.comes
    exact unrolls_of_join unrolls_of_text h
  · rintro ⟨r, h, rfl⟩
    have hj := (h.writes text).join sep
    cases r <;> exact hj

/-! ## Descents -/

namespace Cursor

/-- Texts are written, and then what is left is to write the elements of `rest`; a panic leaves
nothing to be written. -/
def Leads (write : Nat → γ → Run W String) (c : Cursor W γ) (w : W) :
    Except Panic (List String) → Cursor W γ → W → Prop
  | .ok ts, rest, t => ∀ r u, rest.Writes write t r u → c.Writes write w (r.map (ts ++ ·)) u
  | .error p, _, t => c.Writes write w (.error p) t

section Leads

variable {write : Nat → γ → Run W String} {c d rest : Cursor W γ} {w v u t : W}
  {r : Except Panic (List String)}

theorem Leads.congr (h : d.Leads write v r rest t)
    (hs : ∀ x, Settles (d.step · v) x → Settles (c.step · w) x) : c.Leads write w r rest t := by
  cases r with
  | error p => exact Writes.congr h hs
  | ok ts => exact fun r u hr => (h r u hr).congr hs

theorem Leads.cons {b : γ} {x : String} (hs : Settles (c.step · w) (.ok (.yield b), d, v))
    (ht : Settles (write · b v) (.ok x, u)) (h : d.Leads write u r rest t) :
    c.Leads write w (r.map (x :: ·)) rest t := by
  cases r with
  | error p => exact .onward hs ht h
  | ok ts =>
    intro r u hr
    have hw := Writes.onward hs ht (h r u hr)
    cases r <;> exact hw

theorem Leads.trans {ts : List String} (hc : c.Leads write w (.ok ts) d v)
    (hd : d.Leads write v r rest t) : c.Leads write w (r.map (ts ++ ·)) rest t := by
  cases r with
  | error p => exact hc _ _ hd
  | ok us =>
    intro r u hr
    have hw := hc _ u (hd r u hr)
    cases r <;> simpa [Except.map] using hw

end Leads

end Cursor

section Descending

variable {visit : Nat → Nested ι α → Act W (Visit ι γ)} {enters : Nat → Bool}
  {shape : γ → Nested ι α} {write : Nat → γ → Run W String}

/-- The text that is written for an element handed over by a descent is the text of that element. -/
def WritesAs (book : ι → Stream W (Nested ι α)) (text : α → String) (write : Nat → γ → Run W String)
    (shape : γ → Nested ι α) : Prop :=
  ∀ y w x, Settles (Nested.text book text · (shape y) w) x → Settles (write · y w) x

/-- A value is handed over at every level. -/
theorem Selects.value (hv : Selects visit enters shape) (level : Nat) (a : α) :
    ∃ y, shape y = .value a ∧ visit level (.value a) = Act.done (.emit y) := by
  simpa only [Nested.entered_value] using hv level (.value a)

/-- A stream is entered or handed over. -/
theorem Selects.stream (hv : Selects visit enters shape) (level : Nat) (i : ι) :
    ((.stream i : Nested ι α).entered (enters level) = some i ∧
        visit level (.stream i) = Act.done (.enter i)) ∨
      (.stream i : Nested ι α).entered (enters level) = none ∧
        ∃ y, shape y = .stream i ∧ visit level (.stream i) = Act.done (.emit y) := by
  have hx := hv level (.stream i)
  cases he : (Nested.stream i : Nested ι α).entered (enters level) with
  | none =>
    rw [he] at hx
    exact .inr ⟨rfl, hx⟩
  | some j =>
    rw [he] at hx
    cases Nested.eq_stream_of_entered he
    exact .inl ⟨rfl, hx⟩

theorem settles_write_stream (hw : WritesAs book text write shape) {y : γ} {i : ι}
    (hy : shape y = .stream i) {r : Except Panic (List String)}
    (h : (book i).Writes (Nested.text book text) w r t) :
    Settles (write · y w) (r.map ",".intercalate, t) :=
  hw y w _ (by rw [hy]; exact settles_text_stream h)

/-- A stream that cannot be opened when a descent enters it. -/
theorem settles_unopened {level : Nat} {around : Cursor W (Nested ι α) → Cursor W γ}
    {finish : W → Move γ × Cursor W γ × W} {top top' : Cursor W (Nested ι α)} {i : ι} {p : Panic}
    {w v u : W}
    (ht : ∀ top w, (around top).tick w = draining visit book level around finish (top.tick w))
    (hs : Settles (top.step · w) (.ok (.yield (.stream i)), top', v))
    (hv : visit level (.stream i) = Act.done (.enter i)) (hc : (book i).cursor v = (.error p, u)) :
    Settles ((around top).step · w) (.error p, around top', u) := by
  apply settles_draining ht hs
  intro c w' hc'
  simp only [Move.ofStep, draining, descent, opening, hv, Act.done, hc] at hc'
  exact settles_step_panic hc'

/-- A stream that a descent enters is drained before the descent goes on around it. -/
theorem Cursor.Leads.entered {level : Nat} {around : Cursor W (Nested ι α) → Cursor W γ}
    {finish : W → Move γ × Cursor W γ × W} {top top' : Cursor W (Nested ι α)} {i : ι}
    {e : Cursor W (Nested ι α)} {w v u t : W} {rest : Cursor W γ} {r : Except Panic (List String)}
    (ht : ∀ top w, (around top).tick w = draining visit book level around finish (top.tick w))
    (hs : Settles (top.step · w) (.ok (.yield (.stream i)), top', v))
    (hv : visit level (.stream i) = Act.done (.enter i)) (hc : (book i).cursor v = (.ok e, u))
    (h : (dive visit book (level + 1) e (around top')).Leads write u r rest t) :
    (around top).Leads write w r rest t := by
  apply h.congr
  intro x hx
  apply settles_draining ht hs
  intro c w' hc'
  simp only [Move.ofStep, draining, descent, opening, hv, Act.done, hc] at hc'
  exact settles_step_silent hc' hx

/-- A descent goes through the forest as a join does. When the stream that it drains has ended, the
elements of `rest` are left. -/
theorem Cursor.Unrolls.leads (hv : Selects visit enters shape) (hw : WritesAs book text write shape)
    (h : c.Unrolls book w r t) {level : Nat} {around : Cursor W (Nested ι α) → Cursor W γ}
    {finish : W → Move γ × Cursor W γ × W}
    (ht : ∀ top w, (around top).tick w = draining visit book level around finish (top.tick w))
    (rest : Cursor W γ) (hf : ∀ {v x}, Settles (rest.step · v) x →
      ∀ (c : Cursor W γ) (u : W), c.tick u = finish v → Settles (c.step · u) x) :
    (around c).Leads write w (r.map (·.splicedTexts text enters level)) rest t := by
  induction h generalizing level around finish rest with
  | ended hs =>
    intro r u hr
    have hw := hr.congr fun x hx => settles_draining ht hs (hf hx)
    cases r <;> exact hw
  | panicked hs => exact .panicked (settles_draining ht hs fun _ _ => settles_step_panic)
  | @value a c d w v t r hs _ ih =>
    obtain ⟨y, hy, hvy⟩ := hv.value level a
    have hwy : Settles (write · y v) (.ok (text a), v) :=
      hw y v _ (by rw [hy]; exact settles_text_value a v)
    have hl := Leads.cons (settles_passed ht hs hvy) hwy (ih ht rest hf)
    cases r <;> simpa [Except.map, Forest.splicedTexts, Nested.written] using hl
  | @lost i p c d w v u hs hc =>
    rcases hv.stream level i with ⟨-, hx⟩ | ⟨-, y, hy, hvy⟩
    · exact Writes.panicked (settles_unopened ht hs hx hc)
    · exact Writes.refused (settles_passed ht hs hvy) (settles_write_stream hw hy (.lost hc))
  | @broken i p c d e w v u t hs hc hi ih =>
    rcases hv.stream level i with ⟨-, hx⟩ | ⟨-, y, hy, hvy⟩
    · exact .entered ht hs hx hc (ih (tick_dive_eq_draining (level + 1) · (around d)) (around d)
        fun hx _ _ hc => settles_step_silent hc hx)
    · have hwy := settles_write_stream hw hy (.opened hc (hi.writes text))
      exact Writes.refused (settles_passed ht hs hvy) hwy
  | @stream i c d e w v u t x below r hs hc hi _ ihi ih =>
    rcases hv.stream level i with ⟨he, hx⟩ | ⟨he, y, hy, hvy⟩
    · -- what the stream's end leads back to is the descent around it
      have hi := ihi (tick_dive_eq_draining (level + 1) · (around d)) (around d)
        fun hx _ _ hc => settles_step_silent hc hx
      have hl := Leads.trans hi (ih ht rest hf)
      refine .entered ht hs hx hc ?_
      cases r <;> simpa [Except.map, Forest.splicedTexts, he] using hl
    · -- the stream is handed over, and drained while its text is written
      have hwy := settles_write_stream hw hy (.opened hc (hi.writes text))
      have hl := Leads.cons (settles_passed ht hs hvy) hwy (ih ht rest hf)
      cases r <;> simpa [Except.map, Forest.splicedTexts, he, Nested.written] using hl

theorem Stream.Unrolls.writes_descending (hv : Selects visit enters shape)
    (hw : WritesAs book text write shape) (h : s.Unrolls book w r t) :
    (Stream.descending visit book s).Writes write w (r.map (·.splicedTexts text enters 0)) t := by
  cases h with
  | lost hc => exact .lost (by simp only [Stream.cursor, Act.andThen, hc])
  | opened hc h =>
    refine .opened (by simp only [Stream.cursor, Act.andThen, hc]; rfl) ?_
    have hl := h.leads hv hw tick_descend_eq_draining .empty fun {v x} hx c u hc => by
      obtain rfl := hx.unique (settles_step_done rfl)
      exact settles_step_done hc
    cases r with
    | error p => exact hl
    | ok f =>
      have hw := hl _ _ (.ended (settles_step_done rfl))
      simpa [Except.map] using hw

end Descending

namespace Stream

theorem Unrolls.join_leaves (h : s.Unrolls book w r t) (text : α → String) (sep : String) :
    Settles (fun fuel => (s.leaves book).join fuel (fun a => pure (text a)) sep w)
      (r.map fun f => sep.intercalate (f.splicedTexts text (fun _ => true) 0), t) := by
  have hw : WritesAs book text (fun _ a => pure (text a)) (γ := α) .value := fun a w x hx => by
    obtain rfl := hx.unique (settles_text_value a w)
    exact settles_of_first fun _ => rfl
  have hj := (h.writes_descending selects_leaves hw).join sep
  cases r <;> exact hj

theorem unrolls_empty (h : (empty : Stream W (Nested ι α)).Unrolls book w r t) : r = .ok .nil := by
  rcases h with ⟨hc, h⟩ | hc <;> cases hc
  cases h with
  | ended => rfl
  | panicked hs | value hs | lost hs | broken hs | stream hs =>
    cases hs.unique (settles_step_done rfl)

theorem Unrolls.join_flat (h : s.Unrolls book w r t) (text : α → String) (sep : String)
    (depth : Nat) :
    Settles (fun fuel => (s.flat book depth).join fuel (Nested.text book text fuel) sep w)
      (r.map fun f => sep.intercalate (f.splicedTexts text (· < depth) 0), t) := by
  cases hk : s.knownEmpty with
  | true =>
    rw [flat_of_knownEmpty hk]
    cases s with
    | empty =>
      cases unrolls_empty h
      exact (h.writes text).join sep
    | _ => cases hk
  | false =>
    cases depth with
    | zero =>
      have hp : ∀ level, decide (level < 0) = false := fun level =>
        decide_eq_false level.not_lt_zero
      simp only [flat_zero, Forest.splicedTexts_of_passed hp]
      exact settles_join_iff.mpr ⟨r, h, rfl⟩
    | succ depth =>
      have hw : WritesAs book text (Nested.text book text) id := fun _ _ _ hx => hx
      have hj := (h.writes_descending (selects_flat (depth + 1)) hw).join sep
      rw [flat_succ hk]
      cases r <;> exact hj

end Stream

/-! ## Finite nested streams -/

/-- In whatever worlds the cursor is stepped, the steps come back and the elements come to an end,
and so it is with the streams among them. A step may panic. -/
inductive Cursor.Bottoms (book : ι → Stream W (Nested ι α)) : Cursor W (Nested ι α) → Prop
  | intro {c : Cursor W (Nested ι α)} (comes : ∀ w, ∃ x, Settles (c.step · w) x)
      (onward : ∀ {x d w v}, Settles (c.step · w) (.ok (.yield x), d, v) → Bottoms book d)
      (inner : ∀ {i d w v e u}, Settles (c.step · w) (.ok (.yield (.stream i)), d, v) →
        (book i).cursor v = (.ok e, u) → Bottoms book e) : Bottoms book c

theorem Cursor.Bottoms.unrolls (h : c.Bottoms book) (w : W) : ∃ r t, c.Unrolls book w r t := by
  induction h generalizing w with
  | @intro c comes _ _ ih ihi =>
    obtain ⟨⟨p | (a | i) | _, d, v⟩, hs⟩ := comes w
    · exact ⟨_, _, .panicked hs⟩
    · obtain ⟨r, t, h⟩ := ih hs v
      exact ⟨_, t, .value hs h⟩
    · rcases hc : (book i).cursor v with ⟨p | e, u⟩
      · exact ⟨_, _, .lost hs hc⟩
      · obtain ⟨p | below, t, hi⟩ := ihi hs hc u
        · exact ⟨_, _, .broken hs hc hi⟩
        · obtain ⟨r, x, h⟩ := ih hs t
          exact ⟨_, x, .stream hs hc hi h⟩
    · exact ⟨_, _, .ended hs⟩

namespace Stream

/-- The nested stream has finitely many elements, those of the streams among them counted in. -/
def Bottoms (book : ι → Stream W (Nested ι α)) (s : Stream W (Nested ι α)) : Prop :=
  ∀ w c v, s.cursor w = (.ok c, v) → c.Bottoms book

theorem Bottoms.unrolls (h : s.Bottoms book) (w : W) : ∃ r t, s.Unrolls book w r t := by
  rcases hc : s.cursor w with ⟨p | c, v⟩
  · exact ⟨_, _, .lost hc⟩
  · obtain ⟨r, t, hr⟩ := (h w c v hc).unrolls v
    exact ⟨r, t, .opened hc hr⟩

/-- What comes of joining a nested stream, and how. -/
structure JoinsInTurn (book : ι → Stream W (Nested ι α)) (text : α → String)
    (s : Stream W (Nested ι α)) : Prop where
  returns (sep : String) (w : W) :
    ∃ x, Settles (fun fuel => s.join fuel (Nested.text book text fuel) sep w) x
  /-- The elements are gone through in order, and the separator stands between their texts. -/
  joins (sep : String) (w t : W) (x : Except Panic String) :
    Settles (fun fuel => s.join fuel (Nested.text book text fuel) sep w) (x, t) ↔
      ∃ r, s.Unrolls book w r t ∧ x = r.map fun f => sep.intercalate (f.texts text)
  /-- Before an element is pulled the text of the one in front of it has come back. -/
  inTurn (sep : String) (w t : W) (x : Except Panic String) :
    Settles (fun fuel => s.join fuel (Nested.text book text fuel) sep w) (x, t) ↔
      ∃ r, s.Writes (Nested.text book text) w r t ∧ x = r.map sep.intercalate
  /-- The text of a stream has commas between the texts of its elements. -/
  inner (i : ι) (w t : W) (x : Except Panic String) :
    Settles (Nested.text book text · (.stream i) w) (x, t) ↔
      ∃ r, (book i).Writes (Nested.text book text) w r t ∧ x = r.map ",".intercalate
  /-- No flattening shows between commas when the streams among the elements are not empty. -/
  flattened {w t : W} {r : Except Panic (Forest (Nested ι α))} (h : s.Unrolls book w r t)
      (hr : ∀ f, r = .ok f → f.Filled) (depth : Nat) :
    let x := r.map fun f => ",".intercalate (f.texts text)
    Settles (fun fuel => s.join fuel (Nested.text book text fuel) "," w) (x, t) ∧
      Settles (fun fuel => (s.flat book depth).join fuel (Nested.text book text fuel) "," w)
        (x, t) ∧
      Settles (fun fuel => (s.leaves book).join fuel (fun a => pure (text a)) "," w) (x, t)

theorem settles_writes_iff {sep : String} {x : Except Panic String} :
    Settles (fun fuel => s.join fuel (Nested.text book text fuel) sep w) (x, t) ↔
      ∃ r, s.Writes (Nested.text book text) w r t ∧ x = r.map sep.intercalate := by
  constructor
  · intro h
    obtain ⟨r, hr, rfl⟩ := settles_join_iff.mp h
    refine ⟨_, hr.writes text, ?_⟩
    cases r <;> rfl
  · rintro ⟨r, h, rfl⟩
    exact h.join sep

theorem settles_text_stream_iff {i : ι} {x : Except Panic String} :
    Settles (Nested.text book text · (.stream i) w) (x, t) ↔
      ∃ r, (book i).Writes (Nested.text book text) w r t ∧ x = r.map ",".intercalate := by
  constructor
  · intro h
    obtain ⟨fuel, h⟩ := h.comes
    obtain ⟨r, hr, rfl⟩ := unrolls_of_text h
    refine ⟨_, hr.writes text, ?_⟩
    cases r <;> rfl
  · rintro ⟨r, h, rfl⟩
    exact settles_text_stream h

/-- A nested stream with finitely many elements is joined element by element, whatever the pulls and
openings do: the text of a stream that is an element is complete before the stream around it is
pulled again, and has commas in it whatever the separator around it is. With commas throughout it
comes to the same to flatten first, to any depth or to the leaves, unless there are empty streams
among the elements. -/
theorem joins_in_turn (book : ι → Stream W (Nested ι α)) (text : α → String)
    (s : Stream W (Nested ι α)) (hs : s.Bottoms book) : s.JoinsInTurn book text where
  returns sep w := by
    obtain ⟨r, t, h⟩ := hs.unrolls w
    exact ⟨_, settles_join_iff.mpr ⟨r, h, rfl⟩⟩
  joins _ _ _ _ := settles_join_iff
  inTurn _ _ _ _ := settles_writes_iff
  inner _ _ _ _ := settles_text_stream_iff
  flattened {w t r} h hr depth := by
    have hsame : ∀ enters : Nat → Bool,
        (r.map fun f => ",".intercalate (f.splicedTexts text enters 0)) =
          r.map fun f => ",".intercalate (f.texts text) := by
      intro enters
      cases r with
      | error p => rfl
      | ok f => exact congrArg Except.ok (Forest.intercalate_splicedTexts (hr f rfl) 0 [])
    refine ⟨settles_join_iff.mpr ⟨r, h, rfl⟩, ?_, ?_⟩
    · rw [← hsame]
      exact h.join_flat text "," depth
    · rw [← hsame]
      exact h.join_leaves text ","

theorem bottoms_slice {xs : Array (Nested ι α)} (hx : ∀ i, .stream i ∈ xs → (book i).Bottoms book)
    (k : Nat) : (slice xs k : Cursor W (Nested ι α)).Bottoms book := by
  generalize hn : xs.size - k = n
  induction n generalizing k with
  | zero =>
    have hs : ∀ w, Settles ((slice xs k : Cursor W (Nested ι α)).step · w)
        (.ok .done, .slice xs k, w) := by
      intro w
      apply settles_step_done
      rw [tick_slice, Array.getElem?_eq_none (Nat.le_of_sub_eq_zero hn)]
    refine .intro (fun w => ⟨_, hs w⟩) (fun h => ?_) fun h _ => ?_ <;> cases h.unique (hs _)
  | succ n ih =>
    have hk : k < xs.size := by omega
    have hs : ∀ w, Settles ((slice xs k : Cursor W (Nested ι α)).step · w)
        (.ok (.yield xs[k]), .slice xs (k + 1), w) := by
      intro w
      apply settles_step_yield
      rw [tick_slice, Array.getElem?_eq_getElem hk]
    refine .intro (fun w => ⟨_, hs w⟩) (fun h => ?_) fun {i _ _ _ _ _} h hc => ?_
    · cases h.unique (hs _)
      exact ih (k + 1) (by omega)
    · have hi := (Prod.mk.inj (h.unique (hs _))).1
      have hm : .stream i ∈ xs := by
        rw [Step.yield.inj (Except.ok.inj hi)]
        exact Array.getElem_mem hk
      exact hx i hm _ _ _ hc

theorem bottoms_items {xs : Array (Nested ι α)} (hx : ∀ i, .stream i ∈ xs → (book i).Bottoms book) :
    (items xs).Bottoms book := by
  rintro w c v ⟨⟩
  exact bottoms_slice hx 0

/-- A stream that another one is an element of. -/
def drawers : Nat → Stream Unit (Nested Nat String)
  | 0 => .items #[.value "a", .stream 1]
  | _ => .items #[.value "b"]

def chest : Stream Unit (Nested Nat String) := .items #[.stream 0, .value "c"]

theorem bottoms_drawers (i : Nat) : (drawers i).Bottoms drawers := by
  have hi : ∀ i, (drawers (i + 1)).Bottoms drawers := fun i => bottoms_items (by simp)
  cases i with
  | zero =>
    refine bottoms_items fun i h => ?_
    obtain rfl : i = 1 := by simpa using h
    exact hi 0
  | succ i => exact hi i

theorem joins_in_turn_chest :
    chest.Bottoms drawers ∧
      Settles (fun fuel => chest.join fuel (Nested.text drawers id fuel) ";" ()) (.ok "a,b;c", ()) ∧
      Settles (fun fuel => (chest.flat drawers 1).join fuel (Nested.text drawers id fuel) "," ())
        (.ok "a,b,c", ()) := by
  have hb : chest.Bottoms drawers := bottoms_items fun i _ => bottoms_drawers i
  have hu : chest.Unrolls drawers () (.ok (.cons (.stream 0)
      (.cons (.value "a") .nil (.cons (.stream 1) (.cons (.value "b") .nil .nil) .nil))
      (.cons (.value "c") .nil .nil))) () := by
    have hb : Cursor.Unrolls drawers (.slice #[.value "b"] 0) ()
        (.ok (.cons (.value "b") .nil .nil)) () :=
      .value (settles_step_yield rfl) (.ended (settles_step_done rfl))
    have ha : Cursor.Unrolls drawers (.slice #[.value "a", .stream 1] 0) () (.ok (.cons (.value "a")
        .nil (.cons (.stream 1) (.cons (.value "b") .nil .nil) .nil))) () :=
      .value (settles_step_yield rfl) (.stream (settles_step_yield rfl) rfl hb
        (.ended (settles_step_done rfl)))
    exact .opened rfl (.stream (settles_step_yield rfl) rfl ha
      (.value (settles_step_yield rfl) (.ended (settles_step_done rfl))))
  have h := joins_in_turn drawers id chest hb
  refine ⟨hb, (h.joins ";" () () _).mpr ⟨_, hu, rfl⟩, ?_⟩
  exact (h.flattened hu (by rintro f ⟨⟩; simp [Forest.Filled, Nested.isStream]) 1).2.1

end Stream

end PullStream
