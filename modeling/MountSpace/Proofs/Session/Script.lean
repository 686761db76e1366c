import MountSpace.Proofs.Session.Effect

/-!
# Scripts

What an operation of a client does, step by step: it asks one mount after the other, and each mount
serves one piece of work, which asks its backend for one primitive after the other.  A script is
the same whoever serves the primitives.  Served by the stores it is the operation itself; a driver
that serves them otherwise says what the operation comes to there.

## Main definitions

* `Primitive` — what a backend is asked for.
* `Piece` — the work that one mount does in one session.
* `Script` — the pieces of work that an operation hands to the mounts.
* `Driver` — who serves the primitives and commits the sessions; `Driver.stores` are the stores.
* `Piece.run`, `Script.run` — what comes of it under a driver.
* `Call`, `Piece.calls`, `Script.calls` — every primitive that is asked for, with the site it meets.
-/

namespace MountSpace

/-! ## Primitives -/

/-- What a backend is asked for. -/
inductive Primitive : Type
  | status (path : String)
  | content (path : String)
  | list (path : String)
  | write (path : String) (data : Bytes) (overwrite : Bool)
  | append (path : String) (data : Bytes)
  | makeDirectory (path : String)
  | makeLink (path target : String)
  | delete (path : String) (recursive : Bool)
  | move (src dest : String) (overwrite : Bool)
  | setTimes (path : String) (accessed modified : Option Moment)
  deriving DecidableEq, Repr

namespace Primitive

/-- What it gives back. -/
abbrev Result : Primitive → Type
  | status _ => Option Status
  | content _ => Bytes
  | list _ => List Status
  | delete _ _ => Bool
  | _ => Unit

/-- The paths that the backend is handed. -/
def paths : Primitive → List String
  | status path | content path | list path | write path _ _ | append path _ | makeDirectory path
  | makeLink path _ | delete path _ | setTimes path _ _ => [path]
  | move src dest _ => [src, dest]

/-- The primitives that only read. -/
def Reads : Primitive → Prop
  | status _ | content _ | list _ => True
  | _ => False

end Primitive

/-- A primitive, served by the store. -/
def Connection.perform (c : Connection) : (q : Primitive) → Work q.Result
  | .status path => c.status path
  | .content path => c.content path
  | .list path => c.list path
  | .write path data overwrite => c.write path data overwrite
  | .append path data => c.append path data
  | .makeDirectory path => c.makeDirectory path
  | .makeLink path target => c.makeLink path target
  | .delete path recursive => c.delete path recursive
  | .move src dest overwrite => c.move src dest overwrite
  | .setTimes path accessed modified => c.setTimes path accessed modified

/-! ## Drivers -/

/-- Who serves the primitives and commits the sessions. -/
structure Driver where
  /-- Serves a primitive. -/
  perform : Connection → (q : Primitive) → Work q.Result
  /-- Commits a session. -/
  commit : Work Unit

namespace Driver

/-- The stores themselves; a commit has nothing left to do. -/
def stores : Driver := ⟨Connection.perform, pure ()⟩

/-- What encloses a piece of work that runs in a session. -/
def session (d : Driver) (before : Site) : UnitOfWork Error Site :=
  { Mount.session before with commit := d.commit }

/-- A piece of work on a mount. -/
def within {α : Type} (d : Driver) (m : Mount) (work : Connection → Work α) : Work α :=
  UnitOfWork.runWithin (m.database.map fun _ => d.session <$> get) fun _ => work m.connection

variable {α : Type} (d : Driver) {m : Mount} (work : Connection → Work α) (site : Site)

theorem stores_within (m : Mount) : stores.within m work = m.within work := rfl

theorem eval_within_plain (h : m.hasSessions = false) :
    (d.within m work).eval site = (work m.connection).eval site := by
  have hd : m.database = none := by simpa [Mount.hasSessions] using h
  rw [within, hd]
  rfl

/-- A session whose work or commit fails is rolled back. -/
theorem eval_within_session (h : m.hasSessions = true) :
    (d.within m work).eval site = match (work m.connection).eval site with
      | (.ok a, t) => match d.commit.eval t with
        | (.ok (), u) => (.ok a, u)
        | (.error e, u) => (.error e, site.restoreTables u)
      | (.error e, t) => (.error e, site.restoreTables t) := by
  obtain ⟨database, hd⟩ := Option.isSome_iff_exists.mp h
  have hstart : (d.session <$> get : Work (UnitOfWork Error Site)).eval site =
      (.ok (d.session site), site) := rfl
  rw [within, hd]
  simp only [Option.map_some, UnitOfWork.runWithin]
  rw [Action.eval_bind, hstart]
  simp only [UnitOfWork.run, UnitOfWork.settle, session, Mount.session, Action.eval_bind,
    Action.eval_attempt, Action.eval_pure]
  rcases (work m.connection).eval site with ⟨e | a, t⟩
  · rfl
  · dsimp only
    rcases d.commit.eval t with ⟨e | ⟨⟩, u⟩ <;> rfl

end Driver

/-! ## Pieces of work -/

/-- The work that one mount does in one session. -/
inductive Piece : Type → Type 1
  /-- An outcome that is known. -/
  | ofExcept {α : Type} (r : Except Error α) : Piece α
  /-- A primitive of the backend. -/
  | call (q : Primitive) : Piece q.Result
  /-- One after the other. -/
  | bind {α β : Type} (p : Piece α) (f : α → Piece β) : Piece β

namespace Piece

instance : Monad Piece where
  pure a := .ofExcept (.ok a)
  bind := .bind

/-- Gives up. -/
def fail {α : Type} (e : Error) : Piece α := .ofExcept (.error e)

/-- What comes of the work under a driver. -/
def run {α : Type} (d : Driver) (c : Connection) : Piece α → Work α
  | .ofExcept r => .ofExcept r
  | .call q => d.perform c q
  | .bind p f => do (f (← p.run d c)).run d c

section Run

variable {α β : Type} (d : Driver) (c : Connection)

@[simp] theorem run_pure (a : α) : (pure a : Piece α).run d c = pure a := rfl

@[simp] theorem run_fail (e : Error) : (fail e : Piece α).run d c = throw e := rfl

@[simp] theorem run_call (q : Primitive) : (call q).run d c = d.perform c q := rfl

@[simp] theorem run_bind (p : Piece α) (f : α → Piece β) :
    (p >>= f).run d c = p.run d c >>= fun a => (f a).run d c := rfl

end Run

end Piece

/-! ## Scripts -/

/-- The pieces of work that an operation hands to the mounts. -/
inductive Script : Type → Type 1
  /-- An outcome that is known. -/
  | ofExcept {α : Type} (r : Except Error α) : Script α
  /-- A report. -/
  | report (e : Event) : Script Unit
  /-- A piece of work on a mount. -/
  | within {α : Type} (m : Mount) (p : Piece α) : Script α
  /-- A script with its failures turned into an outcome. -/
  | attempt {α : Type} (x : Script α) : Script (Except Error α)
  /-- One after the other. -/
  | bind {α β : Type} (x : Script α) (f : α → Script β) : Script β

namespace Script

instance : Monad Script where
  pure a := .ofExcept (.ok a)
  bind := .bind

/-- Gives up. -/
def fail {α : Type} (e : Error) : Script α := .ofExcept (.error e)

/-- What comes of the script under a driver. -/
def run {α : Type} (d : Driver) : Script α → Work α
  | .ofExcept r => .ofExcept r
  | .report e => Work.report e
  | .within m p => d.within m (p.run d)
  | .attempt x => (x.run d).attempt
  | .bind x f => do (f (← x.run d)).run d

section Run

variable {α β : Type} (d : Driver)

@[simp] theorem run_pure (a : α) : (pure a : Script α).run d = pure a := rfl

@[simp] theorem run_fail (e : Error) : (fail e : Script α).run d = throw e := rfl

@[simp] theorem run_ofExcept (r : Except Error α) : (ofExcept r).run d = .ofExcept r := rfl

@[simp] theorem run_report (e : Event) : (report e).run d = Work.report e := rfl

@[simp] theorem run_within (m : Mount) (p : Piece α) :
    (within m p).run d = d.within m fun c => p.run d c := rfl

@[simp] theorem run_attempt (x : Script α) : x.attempt.run d = (x.run d).attempt := rfl

@[simp] theorem run_bind (x : Script α) (f : α → Script β) :
    (x >>= f).run d = x.run d >>= fun a => (f a).run d := rfl

theorem run_bind_congr {x : Script α} {w : Work α} {f : α → Script β} {g : α → Work β}
    (hx : x.run d = w) (hf : ∀ a, (f a).run d = g a) : (x >>= f).run d = w >>= g := by
  rw [run_bind, hx]
  exact bind_congr hf

/-- What follows a check is compared behind it only. -/
theorem run_check {c : Prop} [Decidable c] {e : Error} {f : Unit → Script α} {g : Unit → Work α}
    (h : (f ()).run d = g ()) :
    (if c then fail e >>= f else f ()).run d = if c then throw e >>= g else g () := by
  split
  · rfl
  · exact h

@[simp] theorem run_map (x : Script α) (f : α → β) : (f <$> x).run d = f <$> x.run d := by
  change (x.run d >>= fun a => pure (f a)) = _
  rw [map_eq_pure_bind]

end Run

end Script

/-! ## What is asked for -/

/-- A primitive that is asked for, with the site that it meets. -/
structure Call where
  /-- What holds just before. -/
  site : Site
  /-- The backend that is asked, as the work reaches it. -/
  connection : Connection
  /-- What it is asked for. -/
  primitive : Primitive

/-- What the work asks of the stores, from a site on. -/
def Piece.calls {α : Type} (c : Connection) : Piece α → Site → List Call
  | .ofExcept _, _ => []
  | .call q, site => [⟨site, c, q⟩]
  | .bind p f, site => p.calls c site ++
    match (p.run .stores c).eval site with
    | (.ok a, t) => (f a).calls c t
    | (.error _, _) => []

/-- What the script asks of the stores, from a site on. -/
def Script.calls {α : Type} : Script α → Site → List Call
  | .ofExcept _, _ | .report _, _ => []
  | .within m p, site => p.calls m.connection site
  | .attempt x, site => x.calls site
  | .bind x f, site => x.calls site ++
    match (x.run .stores).eval site with
    | (.ok a, t) => (f a).calls t
    | (.error _, _) => []

section Calls

variable {α β : Type} (site : Site)

theorem Piece.calls_bind (p : Piece α) (f : α → Piece β) (c : Connection) :
    (p >>= f).calls c site = p.calls c site ++
      match (p.run .stores c).eval site with
      | (.ok a, t) => (f a).calls c t
      | (.error _, _) => [] := by
  change Piece.calls c (.bind p f) site = _
  rw [calls]

theorem Script.calls_bind (x : Script α) (f : α → Script β) :
    (x >>= f).calls site = x.calls site ++
      match (x.run .stores).eval site with
      | (.ok a, t) => (f a).calls t
      | (.error _, _) => [] := by
  change Script.calls (.bind x f) site = _
  rw [calls]

end Calls

end MountSpace
