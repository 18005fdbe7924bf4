import Mathlib

/-!
Calls that answer or refuse and may have changed the state either way.
-/

namespace Slates.Acts

def Act (S E α : Type) : Type := S → Except E α × S

variable {S E α β : Type}

namespace Act

instance : Monad (Act S E) where
  pure a := fun s => (.ok a, s)
  bind x f := fun s =>
    match x s with
    | (.ok a, s') => f a s'
    | (.error e, s') => (.error e, s')

def refuse (e : E) : Act S E α := fun s => (.error e, s)

def change (f : S → S) : Act S E Unit := fun s => (.ok (), f s)

/-- A call and, when it is refused, what takes back what came before it. -/
def orUndo (x : Act S E α) (undo : E → Act S E α) : Act S E α := fun s =>
  match x s with
  | (.ok a, s') => (.ok a, s')
  | (.error e, s') => undo e s'

theorem bind_apply (x : Act S E α) (f : α → Act S E β) (s : S) :
    (x >>= f) s = match x s with
      | (.ok a, s') => f a s'
      | (.error e, s') => (.error e, s') := rfl

variable {s s' : S} {undo : E → Act S E α}

theorem orUndo_ok {x : Act S E α} {a : α} (h : x s = (.ok a, s')) :
    orUndo x undo s = (.ok a, s') := by
  rw [orUndo, h]

theorem orUndo_error {x : Act S E α} {e : E} (h : x s = (.error e, s')) :
    orUndo x undo s = undo e s' := by
  rw [orUndo, h]

end Act

end Slates.Acts
