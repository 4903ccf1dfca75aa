import PullStream.Proofs.Nested.Levels

/-!
# Three ways to spread out a stream of streams

The elements of the streams that a stream yields can be had from the stage made for that, or, when
those streams are boxed as nested ones, from a descent by one level or by all of them. The stage
keeps at most one of them open, and the descents a stack that never grows beyond it, so they go in
lockstep. They part at the end: a descent gives the outer stream up, and the stage goes on asking
it. The story of the stage is the story of all three.
-/

set_option autoImplicit false

namespace PullStream

open Cursor Moves

variable {W ι α : Type}

/-! ## The stage -/

namespace Cursor

variable {book : ι → Stream W α}

variable {out : Cursor W α → Cursor W α} {P : Cursor W ι → Prop}

end Cursor

/-! ## The descents -/

namespace Cursor

variable {book : ι → Stream W α}

/-- The cursor of a stream, and that of the nested stream it is boxed as. -/
def Dressed (c : Cursor W α) (d : Cursor W (Nested ι α)) : Prop :=
  d = map (fun a => Act.done (.value a)) c ∨ c = .empty ∧ d = .empty

/-- The cursor of a stream of streams that are boxed as nested ones, and a descent into these. -/
def unboxing (book : ι → Stream W α) (outer : Cursor W ι) : Cursor W α :=
  .descend Stream.leafVisit (fun i => (book i).plain) (.map (fun i => Act.done (.stream i)) outer)

/-- The stage, and a descent that works on the same streams. -/
inductive Spread (book : ι → Stream W α) : Cursor W α → Cursor W α → Prop
  | above (outer : Cursor W ι) : Spread book (.flatten book outer) (unboxing book outer)
  | within (outer : Cursor W ι) {inner : Cursor W α} {boxed : Cursor W (Nested ι α)}
      (h : Dressed inner boxed) : Spread book (.flattenIn book inner outer)
        (.dive Stream.leafVisit (fun i => (book i).plain) 1 boxed (unboxing book outer))

theorem Dressed.tick {c : Cursor W α} {d : Cursor W (Nested ι α)} (h : Dressed c d) (w : W) :
    ∃ m e f v, c.tick w = (m, e, v) ∧ Dressed e f ∧ d.tick w = (m.boxed, f, v) := by
  rcases h with rfl | ⟨rfl, rfl⟩
  · rcases hc : c.tick w with ⟨m, e, v⟩
    refine ⟨m, e, _, v, rfl, .inl rfl, ?_⟩
    rw [tick_map, hc]
    cases m <;> rfl
  · exact ⟨.done, .empty, .empty, w, rfl, .inr ⟨rfl, rfl⟩, rfl⟩

theorem opening_plain {R : Cursor W α → Cursor W α → Prop} (s : Stream W α)
    {opened : Cursor W α → Cursor W α} {opened' : Cursor W (Nested ι α) → Cursor W α}
    {lost lost' : Cursor W α} (ho : ∀ c d, Dressed c d → R (opened c) (opened' d))
    (hl : R lost lost') (m : Move α) (w : W) :
    Alongside R (opening s opened lost m w) (opening s.plain opened' lost' m w) := by
  cases hs : s.knownEmpty with
  | true =>
    rw [Stream.eq_empty hs]
    exact ⟨rfl, ho _ _ (.inr ⟨rfl, rfl⟩), rfl⟩
  | false =>
    have hp : (s.plain : Stream W (Nested ι α)) = .mapping (fun a => Act.done (.value a)) s := by
      simp [Stream.plain, Stream.map, hs]
    rw [hp]
    simp only [opening, Stream.cursor, Act.andThen, Act.done]
    rcases s.cursor w with ⟨p | c, v⟩
    · exact ⟨rfl, hl, rfl⟩
    · exact ⟨rfl, ho _ _ (.inl rfl), rfl⟩

theorem tick_unboxing (book : ι → Stream W α) (outer : Cursor W ι) (w : W) :
    (unboxing book outer).tick w = match outer.tick w with
      | (.silent, outer, w) => (.silent, unboxing book outer, w)
      | (.yield i, outer, w) => opening (book i).plain
          (.dive Stream.leafVisit (fun i => (book i).plain) 1 · (unboxing book outer))
          (unboxing book outer) .silent w
      | (.done, _, w) => (.done, .empty, w)
      | (.panic p, outer, w) => (.panic p, unboxing book outer, w) := by
  rw [unboxing, tick_descend, tick_map]
  rcases outer.tick w with ⟨_ | i | _ | p, e, v⟩ <;> rfl

theorem Spread.tick {c d : Cursor W α} (hr : Spread book c d) (w : W) :
    Until (· = .done) (Spread book) (c.tick w) (d.tick w) := by
  cases hr with
  | above outer =>
    rw [tick_flatten, tick_unboxing]
    rcases outer.tick w with ⟨_ | i | _ | p, e, v⟩
    · exact ⟨rfl, .inr (.above e), rfl⟩
    · exact (opening_plain (book i) (fun _ _ hd => .within e hd) (.above e) .silent v).until
    · exact ⟨rfl, .inl rfl, rfl⟩
    · exact ⟨rfl, .inr (.above e), rfl⟩
  | within outer hi =>
    obtain ⟨m, e, f, v, hc, hf, hd⟩ := hi.tick w
    rw [tick_flattenIn, tick_dive, hc, hd]
    cases m with
    | done => exact ⟨rfl, .inr (.above outer), rfl⟩
    | _ => exact ⟨rfl, .inr (.within outer hf), rfl⟩

end Cursor

namespace Stream

/-- Each stream, known by its name, as one nested stream. -/
def boxed (ss : Stream W ι) : Stream W (Nested ι α) := ss.map fun i => Act.done (.stream i)

end Stream

end PullStream
