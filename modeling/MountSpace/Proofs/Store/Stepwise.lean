import MountSpace.Proofs.Outcome
import MountSpace.Proofs.Store.Rows

/-!
# Changing a table row by row

Moving an entry and setting its times, done as a session does it: one row, or one column, after the
other.  What was changed before a failure stays changed until the session is rolled back.  Once
failures are undone, these actions are the operations on the table as a whole.

## Main definitions

* `Action.undone` — what comes of an action whose failure is undone.
* `Table.stepMove` — moving, row by row.
* `Table.stepTimes` — setting times, one after the other.

Main statements: `Table.undone_stepMove`, `Table.undone_stepTimes`.
-/

namespace MountSpace

/-! ## Failures undone -/

namespace Action

variable {ε σ α β : Type}

/-- What comes of an action whose failure is undone: a result with the next state, or an error. -/
def undone (a : Action ε σ α) (s : σ) : Except ε (α × σ) :=
  match a.eval s with
  | (.ok x, t) => .ok (x, t)
  | (.error e, _) => .error e

@[simp] theorem undone_pure (a : α) (s : σ) : undone (pure a : Action ε σ α) s = .ok (a, s) := rfl

@[simp] theorem undone_throw (e : ε) (s : σ) : undone (throw e : Action ε σ α) s = .error e := rfl

@[simp] theorem undone_set (s t : σ) :
    undone (set t : Action ε σ PUnit) s = .ok (⟨⟩, t) := rfl

@[simp] theorem undone_ofExcept (r : Except ε α) (s : σ) :
    (ofExcept r).undone s = (·, s) <$> r := by
  cases r <;> rfl

@[simp] theorem undone_peek (f : σ → Except ε α) (s : σ) : (peek f).undone s = (·, s) <$> f s := by
  unfold undone
  rw [eval_peek]
  cases f s <;> rfl

@[simp] theorem undone_bind (a : Action ε σ α) (f : α → Action ε σ β) (s : σ) :
    (a >>= f).undone s = a.undone s >>= fun x => (f x.1).undone x.2 := by
  unfold undone
  rw [eval_bind]
  rcases a.eval s with ⟨e | x, t⟩ <;> rfl

end Action

namespace Table

/-! ## Moving -/

/-- Puts a new row in the place of each of `rows`, one after the other; `done` are the rows before
them, with their old paths. -/
def stepFollow (source : Row) (src dest : String) (done : List (String × Row)) :
    List Row → Action Error Table (List (String × Row))
  | [] => return done
  | r :: rest => do
    let pair ← .ofExcept (follow source src dest r)
    set (⟨some (done.map Prod.snd ++ pair.2 :: rest)⟩ : Table)
    stepFollow source src dest (done ++ [pair]) rest

/-- Moves the rows below the source one after the other, and then the source itself.  Whether all
paths are distinct is seen in the end. -/
def stepRows (source : Row) (src dest : String) : Action Error Table Unit := do
  if src = dest then return
  let rows ← stepFollow source src dest [] (← .peek all)
  let moved ← .ofExcept (moveRow source dest)
  if !rows.any (·.1 == src) then throw .rowGone
  let rows := rows.map fun (old, r) => if old = src then moved else r
  set (⟨some rows⟩ : Table)
  if (rows.map Row.path).Nodup then return else throw .duplicatePath

/-- Takes away what is at the destination of a move. -/
def stepClear (dest : String) (overwrite : Bool) : Action Error Table Unit := do
  match ← .peek (find · dest) with
  | none => pure ()
  | some old =>
    if overwrite then set (← .peek (remove · old false)) else throw (.destinationExists dest)

/-- Moves an entry row by row. -/
def stepMove (src dest : String) (overwrite : Bool) : Action Error Table Unit := do
  let src ← .ofExcept (key src)
  let dest ← .ofExcept (key dest)
  match ← .peek (find · src) with
  | none => throw (.sourceNotFound src)
  | some source =>
    stepClear dest overwrite
    stepRows source src dest

/-- Row by row, the rows become what they become all at once. -/
theorem undone_stepFollow (source : Row) (src dest : String) (done : List (String × Row))
    (rows : List Row) :
    (stepFollow source src dest done rows).undone ⟨some (done.map Prod.snd ++ rows)⟩ =
      (fun pairs => (done ++ pairs, ⟨some ((done ++ pairs).map Prod.snd)⟩)) <$>
        rows.mapM (follow source src dest) := by
  induction rows generalizing done with
  | nil =>
    simp only [stepFollow, Action.undone_pure, List.mapM_nil]
    exact congrArg Except.ok (by simp)
  | cons r rest ih =>
    rw [List.mapM_cons, stepFollow, Action.undone_bind, Action.undone_ofExcept]
    rcases follow source src dest r with e | pair
    · rfl
    have hstate : done.map Prod.snd ++ pair.2 :: rest =
        (done ++ [pair]).map Prod.snd ++ rest := by simp
    change (stepFollow source src dest (done ++ [pair]) rest).undone
      ⟨some (done.map Prod.snd ++ pair.2 :: rest)⟩ = _
    rw [hstate, ih]
    simp only [bind, Except.bind]
    rcases rest.mapM (follow source src dest) with e | pairs
    · rfl
    · simp [Functor.map, Except.map, pure, Except.pure]

theorem eq_of_all {t : Table} {rows : List Row} (h : t.all = .ok rows) : t = ⟨some rows⟩ := by
  obtain ⟨rows?⟩ := t
  cases rows? with
  | none => cases h
  | some found => cases h; rfl

theorem undone_stepRows (source : Row) (src dest : String) (t : Table) :
    (stepRows source src dest).undone t = ((), ·) <$> t.moveRows source src dest := by
  unfold stepRows moveRows
  by_cases heq : src = dest
  · rw [if_pos heq, if_pos heq]
    rfl
  rw [if_neg heq, if_neg heq]
  dsimp only
  rw [Action.undone_bind, Action.undone_peek]
  rcases hrows : t.all with e | rows
  · rfl
  obtain rfl := eq_of_all hrows
  have hfollow := undone_stepFollow source src dest [] rows
  rw [List.map_nil, List.nil_append] at hfollow
  change (stepFollow source src dest [] rows >>= _).undone _ = _ <$> (rows.mapM _ >>= _)
  rw [Action.undone_bind, hfollow]
  rcases rows.mapM (follow source src dest) with e | pairs
  · rfl
  change (Action.ofExcept (moveRow source dest) >>= _).undone _ =
    _ <$> (moveRow source dest >>= _)
  rw [Action.undone_bind, Action.undone_ofExcept]
  rcases moveRow source dest with e | moved
  · rfl
  simp only [List.nil_append, bind, Except.bind, Functor.map, Except.map]
  by_cases hgone : (!pairs.any (·.1 == src)) = true
  · rw [if_pos hgone, if_pos hgone]
    rfl
  rw [if_neg hgone, if_neg hgone]
  split <;> rfl

/-- The table once nothing is left at the destination of a move. -/
def clear (t : Table) (dest : String) (overwrite : Bool) : Except Error Table := do
  match ← t.find dest with
  | none => return t
  | some old => if overwrite then t.remove old false else throw (.destinationExists dest)

theorem undone_stepClear (dest : String) (overwrite : Bool) (t : Table) :
    (stepClear dest overwrite).undone t = ((), ·) <$> t.clear dest overwrite := by
  rw [stepClear, clear, Action.undone_bind, Action.undone_peek]
  rcases t.find dest with e | old?
  · rfl
  cases old? with
  | none => rfl
  | some old =>
    cases overwrite with
    | false => rfl
    | true =>
      change (Action.peek (remove · old false) >>= fun t' => set t').undone t =
        _ <$> t.remove old false
      rw [Action.undone_bind, Action.undone_peek]
      rcases t.remove old false <;> rfl

/-- Moving row by row is moving, once failures are undone. -/
theorem undone_stepMove (src dest : String) (overwrite : Bool) (t : Table) :
    (stepMove src dest overwrite).undone t = ((), ·) <$> t.move src dest overwrite := by
  unfold stepMove move
  rw [Action.undone_bind, Action.undone_ofExcept]
  rcases key src with e | S
  · rfl
  change (Action.ofExcept (key dest) >>= _).undone _ = _ <$> (key dest >>= _)
  rw [Action.undone_bind, Action.undone_ofExcept]
  rcases key dest with e | D
  · rfl
  change (Action.peek _ >>= _).undone _ = _ <$> (t.find S >>= _)
  rw [Action.undone_bind, Action.undone_peek]
  rcases t.find S with e | source?
  · rfl
  cases source? with
  | none => rfl
  | some source =>
  change (stepClear D overwrite >>= fun _ => stepRows source S D).undone t = _
  rw [Action.undone_bind, undone_stepClear, clear]
  simp only [undone_stepRows]
  rcases t.find D with e | old?
  · rfl
  cases old? with
  | none => rfl
  | some old =>
    cases overwrite with
    | false => rfl
    | true =>
      change ((), ·) <$> t.remove old false >>= _ = _ <$> (t.remove old false >>= _)
      rcases t.remove old false <;> rfl

/-! ## Setting times -/

/-- Sets a time of the row stored under a text. -/
def stepTime (key : String) (time : Option Moment) (put : Civil → Row → Row) :
    Action Error Table Unit := do
  match time with
  | none => pure ()
  | some m =>
    let civil ← .ofExcept (stored m)
    let t ← get
    set (t.modify key (put civil))

/-- Sets the times that are given, that of the last reading first. -/
def stepTimes (path : String) (accessed modified : Option Moment) : Action Error Table Unit := do
  let key ← .ofExcept (key path)
  if key = "/" then return
  match ← .peek (find · key) with
  | none => throw (.notFound key)
  | some _ =>
    stepTime key accessed fun time r => { r with accessed := time }
    stepTime key modified fun time r => { r with modified := time }

theorem undone_stepTime (key : String) (time : Option Moment) (put : Civil → Row → Row)
    (t : Table) : (stepTime key time put).undone t =
      (fun civil => ((), civil.elim t fun civil => t.modify key (put civil))) <$>
        time.mapM stored := by
  cases time with
  | none => rfl
  | some m =>
    change (Action.ofExcept (stored m) >>= _).undone t = _ <$> (some <$> stored m)
    rw [Action.undone_bind, Action.undone_ofExcept]
    rcases stored m <;> rfl

theorem modify_same (t : Table) (key : String) : (t.modify key fun r => r) = t := by
  obtain ⟨rows?⟩ := t
  simp [modify]

/-- Two changes of one row that keep its path, made at once. -/
theorem modify_modify (t : Table) (key : String) {f g : Row → Row}
    (hf : ∀ r, (f r).path = r.path) :
    (t.modify key f).modify key g = t.modify key fun r => g (f r) := by
  obtain ⟨rows?⟩ := t
  simp only [modify, Option.map_map]
  refine congrArg Table.mk (congrArg (Option.map · rows?) (funext fun rows => ?_))
  rw [Function.comp_apply, List.map_map]
  refine List.map_congr_left fun r _ => ?_
  rw [Function.comp_apply]
  by_cases hkey : (r.path == key) = true
  · rw [if_pos hkey, if_pos (by rwa [hf])]
    simp [hkey]
  · rw [if_neg hkey, if_neg hkey, if_neg hkey]

/-- Setting one time after the other is setting both, once failures are undone. -/
theorem undone_stepTimes (path : String) (accessed modified : Option Moment) (t : Table) :
    (stepTimes path accessed modified).undone t =
      ((), ·) <$> t.setTimes path accessed modified := by
  unfold stepTimes setTimes
  rw [Action.undone_bind, Action.undone_ofExcept]
  rcases key path with e | k
  · rfl
  change (if k = "/" then _ else _ : Action Error Table Unit).undone t =
    _ <$> (if k = "/" then _ else _ : Except Error Table)
  by_cases hroot : k = "/"
  · rw [if_pos hroot, if_pos hroot]
    rfl
  rw [if_neg hroot, if_neg hroot]
  rw [Action.undone_bind, Action.undone_peek]
  rcases t.find k with e | row?
  · rfl
  cases row? with
  | none => rfl
  | some row =>
  change (stepTime k accessed _ >>= fun _ => stepTime k modified _).undone t =
    _ <$> (accessed.mapM stored >>= fun a => modified.mapM stored >>= fun m => pure _)
  rw [Action.undone_bind, undone_stepTime]
  rcases accessed.mapM stored with e | a
  · rfl
  simp only [Functor.map, Except.map, bind, Except.bind]
  rw [undone_stepTime]
  rcases modified.mapM stored with e | m
  · rfl
  refine congrArg (fun t' => Except.ok ((), t')) ?_
  cases a with
  | none =>
    cases m with
    | none => exact (modify_same t k).symm
    | some m => rfl
  | some a =>
    cases m with
    | none => rfl
    | some m => exact modify_modify t k fun _ => rfl

end Table

end MountSpace
