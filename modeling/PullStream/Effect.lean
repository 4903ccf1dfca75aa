/-!
# Effects of callbacks

A callback reads and changes a world `W` and either answers or panics. A panic keeps the world it
happened in, so what was logged before it stays logged. `Act` is one such call. `Run` is an activity
that pulls a stream as long as it needs: it carries a fuel bound, and `none` says that the fuel ran
out, which is neither an answer nor a panic.
-/

set_option autoImplicit false

namespace PullStream

universe u v

structure Panic where
  message : String
deriving DecidableEq, Repr

def Act (W : Type) (α : Type u) : Type u := W → Except Panic α × W

namespace Act

variable {W : Type} {α : Type u} {β : Type v}

def done (a : α) : Act W α := fun w => (.ok a, w)

def fail (message : String) : Act W α := fun w => (.error ⟨message⟩, w)

def andThen (x : Act W α) (f : α → Act W β) : Act W β := fun w =>
  match x w with
  | (.ok a, w) => f a w
  | (.error p, w) => (.error p, w)

def read : Act W W := fun w => (.ok w, w)

def change (f : W → W) : Act W Unit := fun w => (.ok (), f w)

instance : Monad (Act W) where
  pure := done
  bind := andThen

@[simp] theorem pure_apply (a : α) (w : W) : (pure a : Act W α) w = (.ok a, w) := rfl

theorem bind_apply {α β : Type u} (x : Act W α) (f : α → Act W β) (w : W) :
    (x >>= f) w = match x w with
      | (.ok a, w) => f a w
      | (.error p, w) => (.error p, w) := rfl

theorem andThen_assoc {γ : Type u} (x : Act W α) (f : α → Act W β) (g : β → Act W γ) :
    (x.andThen f).andThen g = x.andThen fun a => (f a).andThen g := by
  funext w
  simp only [andThen]
  rcases x w with ⟨_ | _, _⟩ <;> rfl

theorem andThen_done (x : Act W α) : x.andThen done = x := by
  funext w
  simp only [andThen]
  rcases x w with ⟨_ | _, _⟩ <;> rfl

instance : LawfulMonad (Act W) :=
  .mk' _ andThen_done (fun _ _ => rfl) andThen_assoc

end Act

def Run (W : Type) (α : Type u) : Type u := W → Option (Except Panic α × W)

namespace Run

variable {W : Type} {α : Type u} {β : Type v}

def ofAct (x : Act W α) : Run W α := fun w => some (x w)

/-- The answer of an activity whose fuel ran out before it came back. -/
def exhausted : Run W α := fun _ => none

def andThen (x : Run W α) (f : α → Run W β) : Run W β := fun w =>
  match x w with
  | none => none
  | some (.ok a, w) => f a w
  | some (.error p, w) => some (.error p, w)

instance : Monad (Run W) where
  pure a := ofAct (Act.done a)
  bind := andThen

instance : MonadLift (Act W) (Run W) := ⟨ofAct⟩

@[simp] theorem pure_apply (a : α) (w : W) : (pure a : Run W α) w = some (.ok a, w) := rfl

theorem andThen_assoc {γ : Type u} (x : Run W α) (f : α → Run W β) (g : β → Run W γ) :
    (x.andThen f).andThen g = x.andThen fun a => (f a).andThen g := by
  funext w
  simp only [andThen]
  rcases x w with _ | ⟨_ | _, _⟩ <;> rfl

/-- The answer of an activity that needs no world, if it came back without a panic. -/
def answer? (x : Run Unit α) : Option α :=
  match x () with
  | some (.ok a, _) => some a
  | _ => none

end Run

end PullStream
