import PullStream.Proofs.Cursor.Bounds
import PullStream.Stream.Combinators

/-!
# What is asked again behind its end

A supplier that promises to stay at its end is asked again there, as often as the cursor around it
is. It can keep the promise and still do something each time, such as to write into a log or to
panic. `Source.Rests` says that it does neither, and a supplier that is not asked again rests anyway.
A stream rests if those of its suppliers do in which it may come to its end; others are given up when
they have ended, and whatever they would do is not seen. The cursors of such a stream rest too.
-/

set_option autoImplicit false

namespace PullStream

variable {W α : Type}

/-- Asked again in this state, the supplier reports the end and does nothing else. -/
structure Source.AtRest {σ : Type} (src : Source W σ α) (s : σ) : Prop where
  again : src.again = true
  steps : src.jump = none
  still : ∀ w, src.pull s w = (.ok .done, s, w)

/-- If the supplier is asked again behind its end, that has no effect. -/
def Source.Rests {σ : Type} (src : Source W σ α) : Prop :=
  src.again = true → ∀ {s w s' w'}, src.pull s w = (.ok .done, s', w') → src.AtRest s'

/-- Every supplier rests in which the stream may come to its end. -/
def Stream.Rests : {α : Type} → Stream W α → Prop
  | _, .empty => True
  | _, .items _ => True
  | _, .source _ src => src.Rests
  | _, .fused _ => True
  | _, .deferred _ book => ∀ i, (book i).Rests
  | _, .mapping _ s => s.Rests
  | _, .filtering _ s => s.Rests
  | _, .choosing _ s => s.Rests
  | _, .joining _ second => second.Rests
  | _, .skipping _ s => s.Rests
  | _, .capping _ _ => True
  | _, .deduplicating _ _ s => s.Rests
  | _, .excluding _ _ _ s => s.Rests
  | _, .flattening _ s => s.Rests
  | _, .descending _ _ _ => True

def Cursor.Rests : {α : Type} → Cursor W α → Prop
  | _, .empty => True
  | _, .slice _ _ => True
  | _, .source src _ _ => src.Rests
  | _, .fused _ _ => True
  | _, .map _ c => c.Rests
  | _, .filter _ c => c.Rests
  | _, .filterMap _ c => c.Rests
  | _, .first _ later => later.Rests
  | _, .second c => c.Rests
  | _, .tail _ c => c.Rests
  | _, .limit _ _ => True
  | _, .distinct _ _ _ c => c.Rests
  | _, .excludeFresh _ _ _ c => c.Rests
  | _, .excludeDrain _ _ _ _ _ c => c.Rests
  | _, .excludeReady _ _ _ c => c.Rests
  | _, .flatten _ outer => outer.Rests
  | _, .flattenIn _ _ outer => outer.Rests
  | _, .descend _ _ _ => True
  | _, .dive _ _ _ _ rest => rest.Rests

theorem Stream.cursor_rests (s : Stream W α) (hs : s.Rests) {c : Cursor W α} {w w' : W}
    (h : s.cursor w = (.ok c, w')) : c.Rests := by
  induction s generalizing w w' with
  | empty | items =>
    cases h
    trivial
  | source start src =>
    obtain ⟨s, v, -, he⟩ := Act.andThen_ok h
    cases he
    exact hs
  | deferred start book ih =>
    obtain ⟨i, v, -, hi⟩ := Act.andThen_ok h
    exact ih i (hs i) hi
  | joining a b =>
    obtain ⟨d, v, -, he⟩ := Act.andThen_ok h
    cases he
    exact hs
  | fused | capping | descending =>
    obtain ⟨d, v, -, he⟩ := Act.andThen_ok h
    cases he
    trivial
  | mapping _ _ ih | filtering _ _ ih | choosing _ _ ih | skipping _ _ ih | deduplicating _ _ _ ih
  | excluding _ _ _ _ _ ih | flattening _ _ _ ih =>
    obtain ⟨d, v, hd, he⟩ := Act.andThen_ok h
    cases he
    have hr := ih hs hd
    exact hr

namespace Cursor

theorem Becomes.rests {c d : Cursor W α} (h : c.Becomes d) (hc : c.Rests) : d.Rests := by
  induction h with
  | handOver ho =>
    have hd := Stream.cursor_rests _ hc ho
    exact hd
  | slice | fused | handOverLost | limit | descend | descentEnded | entered => trivial
  | stay | source | first | drainOpened | drain | drainLost | drained | flattenIn | innerEnded
  | dive | enteredDeeper | surfaced => exact hc
  | map h ih | filter h ih | filterMap h ih | second h ih | tail h ih | distinct h ih
  | excludeReady h ih | flatten h ih | innerOpened h ho ih =>
    have hd := ih hc
    exact hd

theorem ascend_rests {c : Cursor W α} (h : c.Rests) : c.ascend.Rests := by
  cases c with
  | descend => trivial
  | _ => exact h

/-- The end of the cursor is final: storage is read within its bounds, and what is asked again behind
its end rests. -/
structure Firm (c : Cursor W α) : Prop where
  inBounds : c.InBounds
  rests : c.Rests

theorem firm_empty : (empty : Cursor W α).Firm := ⟨trivial, trivial⟩

theorem Becomes.firm {c d : Cursor W α} (h : c.Becomes d) (hc : c.Firm) : d.Firm :=
  ⟨h.inBounds hc.inBounds, h.rests hc.rests⟩

end Cursor

theorem Stream.cursor_firm {s : Stream W α} (hs : s.Rests) {c : Cursor W α} {w w' : W}
    (h : s.cursor w = (.ok c, w')) : c.Firm :=
  ⟨s.cursor_inBounds h, s.cursor_rests hs h⟩

end PullStream
