/-!
# Actions and units of work

An action may fail, and what it did before it failed stays done.  A unit of work encloses an
action: it is committed when the action succeeds, rolled back when the action or the commit
fails, and closed in the end.

## Main definitions

* `Action` — an action on a state.
* `UnitOfWork` — how a unit of work is committed, rolled back and closed.
* `UnitOfWork.run` — an action inside a unit of work.
* `UnitOfWork.runWithin` — an action that may be given one.
-/

namespace MountSpace

/-- An action on a state `σ` that may fail with an `ε`; what was done before stays done. -/
abbrev Action (ε σ α : Type) := ExceptT ε (StateM σ) α

namespace Action

variable {ε σ α β : Type}

/-- The outcome of an action and the state after it. -/
def eval (a : Action ε σ α) (s : σ) : Except ε α × σ := ExceptT.run a s

/-- The action that does what a function of the state says. -/
def ofFun (f : σ → Except ε α × σ) : Action ε σ α := ExceptT.mk f

/-- An outcome as an action. -/
def ofExcept (r : Except ε α) : Action ε σ α := ofFun fun s => (r, s)

/-- What the state says, unchanged. -/
def peek (f : σ → Except ε α) : Action ε σ α := ofFun fun s => (f s, s)

/-- An action with its failures turned into an outcome. -/
def attempt (a : Action ε σ α) : Action ε σ (Except ε α) := ofFun fun s =>
  let (r, s) := a.eval s
  (.ok r, s)

@[simp] theorem eval_ofFun (f : σ → Except ε α × σ) (s : σ) : (ofFun f).eval s = f s := rfl

@[simp] theorem eval_ofExcept (r : Except ε α) (s : σ) : (ofExcept r).eval s = (r, s) := rfl

@[simp] theorem eval_peek (f : σ → Except ε α) (s : σ) : (peek f).eval s = (f s, s) := rfl

@[simp] theorem eval_pure (a : α) (s : σ) : eval (pure a : Action ε σ α) s = (.ok a, s) := rfl

@[simp] theorem eval_throw (e : ε) (s : σ) : eval (throw e : Action ε σ α) s = (.error e, s) := rfl

@[simp] theorem eval_attempt (a : Action ε σ α) (s : σ) :
    a.attempt.eval s = (.ok (a.eval s).1, (a.eval s).2) := rfl

/-- One action after the other: the second starts from the state the first leaves. -/
theorem eval_bind (a : Action ε σ α) (f : α → Action ε σ β) (s : σ) :
    (a >>= f).eval s = match a.eval s with
      | (.ok x, s) => (f x).eval s
      | (.error e, s) => (.error e, s) := by
  have h : (a >>= f).eval s = (match a.eval s with | (r, s) => ExceptT.bindCont f r s) := rfl
  rw [h]
  rcases a.eval s with ⟨r | r, s'⟩ <;> rfl

end Action

/-- How a unit of work is committed, rolled back and closed. -/
structure UnitOfWork (ε σ : Type) where
  /-- Makes what was done last. -/
  commit : Action ε σ Unit
  /-- Undoes what was done. -/
  rollback : Action ε σ Unit
  /-- Ends the unit. -/
  close : Action ε σ Unit

namespace UnitOfWork

variable {ε σ α : Type}

/-- The outcome `r`, after an action that may put its own failure in its place. -/
def settle (r : Except ε α) (last : Action ε σ Unit) : Action ε σ α := do
  last
  .ofExcept r

/-- An action inside a unit of work.  A later failure takes the place of an earlier one. -/
def run (u : UnitOfWork ε σ) (body : Action ε σ α) : Action ε σ α := do
  let done ← Action.attempt do
    let result ← Action.attempt do
      let a ← body
      u.commit
      pure a
    match result with
    | .ok a => pure a
    | .error e => settle (.error e) u.rollback
  settle done u.close

/-- An action inside the unit of work that `begin_` starts, or outside any if there is none.  The
action is told which of the two holds. -/
def runWithin (begin_ : Option (Action ε σ (UnitOfWork ε σ))) (body : Bool → Action ε σ α) :
    Action ε σ α :=
  match begin_ with
  | none => body false
  | some start => do (← start).run (body true)

end UnitOfWork

end MountSpace
