import PullStream.Proofs.Independence.Building

/-!
# Expressions without the shared counter

The counter is the one state that the callbacks of a script share. That none of an expression's
callbacks uses it can be read off its text, and the stream that is built from such an expression
overlooks every change of the counter.
-/

set_option autoImplicit false

namespace PullStream.Script

mutual

/-- No callback in the expression uses the counter, and none in the streams that are `known` by a
name. -/
def Expr.uncounted (known : String → Bool) : Expr → Bool
  | .same e => e.uncounted known
  | .reopened e => e.uncounted known
  | .all es => allUncounted known es
  | .streams es => allUncounted known es
  | .var name => known name
  | .apply e op => e.uncounted known && op.uncounted known
  | _ => true

def allUncounted (known : String → Bool) : List Expr → Bool
  | [] => true
  | e :: es => e.uncounted known && allUncounted known es

def Op.uncounted (known : String → Bool) : Op → Bool
  | .concat other => other.uncounted known
  | .map f => f.uncounted
  | .filter p => p.uncounted
  | .filterMap p f => p.uncounted && f.uncounted
  | .distinctBy key => key.uncounted
  | .exclude other => other.uncounted known
  | .excludeBy other key => other.uncounted known && key.uncounted
  | .flatMap h => h.uncounted known
  | .nest h => h.uncounted known
  | .streams h => h.uncounted known
  | _ => true

def Nesting.uncounted (known : String → Bool) : Nesting → Bool
  | .expr e => e.uncounted known
  | .choose p yes no => p.uncounted && yes.uncounted known && no.uncounted known
  | _ => true

end

section Building

-- the hypothesis is used in one theorem of the block, which all the others lead to
set_option linter.unusedSectionVars false

variable {known : String → Bool} {env : String → Option Built}
  {before : Int64 × List Event}

variable (henv : ∀ name c, known name = true → env name = some c →
  c.Overlooks (past World.view before))

include henv

mutual

theorem Expr.overlooks_build : (e : Expr) → e.uncounted known = true →
    Gives (Built.Overlooks (past World.view before)) (e.build env)
  | .empty, _ => trivial
  | .items _, _ => Stream.overlooks_ofArray _
  | .view _, _ => Stream.overlooks_view _
  | .option _, _ => Stream.overlooks_ofOption _
  | .once _, _ => Stream.overlooks_ofList _
  | .range _ stop, _ => ⟨Act.overlooks_done _, overlooks_rangeSource stop⟩
  | .count start step, _ => overlooks_counting start step
  | .same e, h => e.overlooks_build h
  | .reopened e, h => (e.overlooks_build h).map fun hb => hb.each id
  | .all es, h => (overlooks_buildAll es h).bind fun hbs => Built.Overlooks.all hbs trivial
  | .tree t, _ => t.overlooks_labels
  | .var name, h => by
    rw [Expr.build]
    rcases hc : env name with _ | c
    · trivial
    · exact henv name c h hc
  | .scripted jumps tag cues, _ => overlooks_scripted jumps tag cues
  | .nested xs, _ => NestedStream.overlooks_ofValues xs
  | .deep k, _ => NestedStream.overlooks_ofDepth k
  | .streams es, h => (overlooks_buildValues es h).map StreamOfStreams.overlooks_ofList
  | .options _, _ => Stream.overlooks_ofArray _
  | .apply e op, h => by
    rw [Expr.uncounted, Bool.and_eq_true] at h
    exact (e.overlooks_build h.1).bind (op.overlooks_apply h.2)

theorem overlooks_buildAll : (es : List Expr) → allUncounted known es = true →
    Gives (fun bs => ∀ b ∈ bs, b.Overlooks (past World.view before)) (buildAll env es)
  | [], _ => nofun
  | e :: es, h => by
    rw [allUncounted, Bool.and_eq_true] at h
    exact (e.overlooks_build h.1).bind fun hb => (overlooks_buildAll es h.2).map fun hbs =>
      List.forall_mem_cons.mpr ⟨hb, hbs⟩

theorem overlooks_buildValues : (es : List Expr) → allUncounted known es = true →
    Gives (fun ss => ∀ s ∈ ss, s.Overlooks (past World.view before)) (buildValues env es)
  | [], _ => nofun
  | e :: es, h => by
    rw [allUncounted, Bool.and_eq_true] at h
    exact (e.overlooks_build h.1).bind fun hb => hb.values?.bind fun hs =>
      (overlooks_buildValues es h.2).map fun hss => List.forall_mem_cons.mpr ⟨hs, hss⟩

theorem Op.overlooks_apply : (op : Op) → op.uncounted known = true → {b : Built} →
    b.Overlooks (past World.view before) →
    Gives (Built.Overlooks (past World.view before)) (op.apply env b)
  | .tail k, _, _, hb => hb.each fun hs => hs.tail k
  | .limit k, _, _, hb => hb.each fun hs => hs.limit k
  | .concat other, h, _, hb => (other.overlooks_build h).bind hb.concat
  | .map _, h, _, hb => hb.mapValues fun hs => hs.map (Fn.overlooks_run h)
  | .filter _, h, _, hb => hb.mapValues fun hs => hs.filter (Pred.overlooks_run h)
  | .filterMap p f, h, _, hb => by
    rw [Op.uncounted, Bool.and_eq_true] at h
    refine hb.mapValues fun hs => hs.filterMap fun x => (Pred.overlooks_run h.1 x).bind fun c => ?_
    cases c
    · exact Act.overlooks_done _
    · exact (Fn.overlooks_run h.2 x).bind fun _ => Act.overlooks_done _
  | .distinct, _, _, hb => hb.mapValues fun hs => hs.distinctBy Act.overlooks_done
  | .distinctBy _, h, _, hb => hb.mapValues fun hs => hs.distinctBy (Fn.overlooks_run h)
  | .exclude other, h, _, hb => (other.overlooks_build h).bind fun ho =>
    ho.values?.bind fun ho => hb.mapValues fun hs => hs.excludeBy ho Act.overlooks_done
  | .excludeBy other key, h, _, hb => by
    rw [Op.uncounted, Bool.and_eq_true] at h
    exact (other.overlooks_build h.1).bind fun ho => ho.values?.bind fun ho =>
      hb.mapValues fun hs => hs.excludeBy ho (Fn.overlooks_run h.2)
  | .flatMap f, h, _, hb => (f.overlooks_function h).bind fun hf =>
    hb.mapValues fun hs => hf.flatMap hs
  | .nest f, h, _, hb => (f.overlooks_function h).bind fun hf =>
    hb.mapValues fun hs => hf.nest hs
  | .streams f, h, _, hb => (f.overlooks_streamOf h).bind fun hf =>
    hb.mapValues fun hs => ⟨hf, hs.map Act.overlooks_done⟩
  | .options, _, _, hb => hb.mapValues fun hs => hs.map fun _ => Act.overlooks_done _
  | .flat depth, _, _, hb => hb.nested?.map fun hs => ⟨hs.book, hs.stream.flat hs.book depth⟩
  | .leaves, _, _, hb => hb.nested?.map fun hs => hs.stream.leaves hs.book
  | .values, _, _, hb => hb.nested?.map fun hs => hs.stream.filterMap fun _ => Act.overlooks_done _
  | .onlyStreams, _, _, hb => hb.nested?.map fun hs =>
    ⟨hs.book, hs.stream.filter fun _ => Act.overlooks_done _⟩
  | .flatten, _, _, hb => hb.streams?.map fun hs => hs.stream.flatten hs.book
  | .nonNull, _, _, hb => hb.options?.map fun hs => hs.filterMap Act.overlooks_done

theorem Nesting.overlooks_streamOf : (f : Nesting) → f.uncounted known = true →
    Gives (fun f => ∀ x, (f x).Overlooks (past World.view before)) (f.streamOf env)
  | .list, _ => overlooks_listStream
  | .range, _ => overlooks_rangeStream
  | .empty, _ => fun _ => trivial
  | .expr e, h => (e.overlooks_build h).bind fun hb => hb.values?.map fun hs _ => hs
  | .value, _ => trivial
  | .nest, _ => trivial
  | .choose _ _ _, _ => trivial

theorem Nesting.overlooks_function : (f : Nesting) → f.uncounted known = true →
    Gives (NestingFunction.Overlooks (past World.view before)) (f.function env)
  | .list, _ => NestingFunction.overlooks_ofStreams overlooks_listStream
  | .range, _ => NestingFunction.overlooks_ofStreams overlooks_rangeStream
  | .empty, _ => NestingFunction.overlooks_ofStreams fun _ => trivial
  | .expr e, h => (e.overlooks_build h).bind fun hb => hb.values?.map fun hs =>
    NestingFunction.overlooks_ofStreams fun _ => hs
  | .value, _ => NestingFunction.overlooks_plain
  | .nest, _ => NestingFunction.overlooks_ofLists
  | .choose p yes no, h => by
    rw [Nesting.uncounted, Bool.and_eq_true, Bool.and_eq_true] at h
    exact (yes.overlooks_function h.1.2).bind fun hy => (no.overlooks_function h.2).map
      fun hn => NestingFunction.overlooks_choose (Pred.overlooks_run h.1.1) hy hn

end

end Building

/-- A stream that a script came to without the counter, from streams of which that is true too. -/
inductive Built.Uncounted : Built → Prop
  | build (known : String → Bool) {env : String → Option Built} {e : Expr} {b : Built}
      (henv : ∀ name c, known name = true → env name = some c → Uncounted c)
      (he : e.uncounted known = true) (hb : e.build env = .ok b) : Uncounted b

theorem Built.Uncounted.overlooks {b : Built} (h : b.Uncounted) (before : Int64 × List Event) :
    b.Overlooks (past World.view before) := by
  induction h with
  | build known henv he hb ih =>
    have hg := Expr.overlooks_build ih _ he
    rwa [hb] at hg

end PullStream.Script
