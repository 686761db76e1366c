import MountSpace.Proofs.Outcome
import MountSpace.Proofs.Path.Reading
import MountSpace.Proofs.Resolve.Canonical
import MountSpace.Session

/-!
# What work leaves behind

Resolving reads the site and adds reports.  Work within a session puts the tables back when it
fails.  Most requests of a client change nothing else; the others change one store, and only after
the paths they were given have been resolved.

## Main definitions

* `Site.told` — a site with more reports.
* `Work.Quiet` — work that leaves nothing but reports.
* `Session.Resolves` — a path leads to its end, in a given state of the site.
-/

namespace MountSpace

/-! ## Reports -/

/-- The site with more reports. -/
def Site.told (site : Site) (events : List Event) : Site :=
  { site with journal := site.journal ++ events }

namespace Site

@[simp] theorem told_nil (site : Site) : site.told [] = site := by simp [told]

@[simp] theorem told_told (site : Site) (events more : List Event) :
    (site.told events).told more = site.told (events ++ more) := by simp [told]

end Site

@[simp] theorem Work.eval_report (e : Event) (site : Site) :
    (Work.report e).eval site = (.ok (), site.told [e]) := rfl

/-! ## Running actions -/

/-- Work that leaves nothing but reports. -/
def Work.Quiet {α : Type} (w : Work α) : Prop :=
  ∀ site, ∃ events, (w.eval site).2 = site.told events

namespace Work

variable {α β : Type} {w : Work α} {f : α → Work β}

theorem quiet_pure (a : α) : Quiet (pure a) := fun site => ⟨[], by simp⟩

theorem quiet_throw (e : Error) : Quiet (throw e : Work α) := fun site => ⟨[], by simp⟩

theorem quiet_ofExcept (r : Except Error α) : Quiet (.ofExcept r) := fun site => ⟨[], by simp⟩

theorem quiet_peek (f : Site → Except Error α) : Quiet (.peek f) := fun site => ⟨[], by simp⟩

theorem quiet_report (e : Event) : Quiet (report e) := fun _ => ⟨[e], rfl⟩

theorem Quiet.bind (hw : Quiet w) (hf : ∀ a, Quiet (f a)) : Quiet (w >>= f) := by
  intro site
  obtain ⟨events, hsite⟩ := hw site
  rw [Action.eval_bind]
  cases h : w.eval site with
  | mk r t =>
    rw [h] at hsite
    obtain rfl : t = site.told events := hsite
    cases r with
    | error e => exact ⟨events, rfl⟩
    | ok a =>
      obtain ⟨more, hmore⟩ := hf a (site.told events)
      exact ⟨events ++ more, by simpa using hmore⟩

theorem Quiet.attempt (hw : Quiet w) : Quiet (Action.attempt w) := by
  intro site
  simpa using hw site

theorem Quiet.ite {c : Prop} [Decidable c] {v : Work α} (hw : Quiet w) (hv : Quiet v) :
    Quiet (if c then w else v) := by
  split
  · exact hw
  · exact hv

end Work

namespace Mount

variable {α : Type} (m : Mount) (work : Connection → Work α)

/-- The tables are as before when work within a session fails. -/
theorem eval_within (site : Site) :
    (m.within work).eval site = match (work m.connection).eval site with
      | (.ok a, t) => (.ok a, t)
      | (.error e, t) => (.error e, if m.hasSessions then site.restoreTables t else t) := by
  unfold within hasSessions
  cases hd : m.database with
  | none =>
    simp only [Option.map_none, UnitOfWork.runWithin, Option.isSome_none]
    rcases (work m.connection).eval site with ⟨e | a, t⟩ <;> rfl
  | some database =>
    have hstart : (session <$> get : Work (UnitOfWork Error Site)).eval site =
        (.ok (session site), site) := rfl
    simp only [Option.map_some, UnitOfWork.runWithin, Option.isSome_some, if_true]
    rw [Action.eval_bind, hstart]
    simp only [UnitOfWork.run, UnitOfWork.settle, session, Action.eval_bind,
      Action.eval_attempt, Action.eval_pure]
    rcases (work m.connection).eval site with ⟨e | a, t⟩ <;> rfl

theorem quiet_within {work : Connection → Work α} (h : ∀ c, Work.Quiet (work c)) :
    Work.Quiet (m.within work) := by
  intro site
  obtain ⟨events, hsite⟩ := h m.connection site
  refine ⟨events, ?_⟩
  rw [eval_within]
  rcases hw : (work m.connection).eval site with ⟨e | a, t⟩ <;> rw [hw] at hsite
  · obtain rfl : t = site.told events := hsite
    dsimp only
    split <;> rfl
  · exact hsite

end Mount

/-! ## Resolving -/

namespace Session

variable {s : Session} {site : Site} {path : Path} {follow : Bool} {r : Resolution}

/-- The walks of one path. -/
def trace (s : Session) (site : Site) (path : Path) (follow : Bool) : Trace :=
  (s.atlas site).resolve s.standpoint s.maxLinks path follow

/-- A path with a location is walked as it stands. -/
theorem trace_of_isStated {s : Session} {site : Site} {path : Path} {follow : Bool}
    (h : path.location.isStated = true) :
    s.trace site path follow = (s.atlas site).trace path follow s.maxLinks path := by
  rw [trace, Atlas.resolve, Atlas.start, if_pos h]

/-- The path leads to the end `r` in this state of the site. -/
def Resolves (s : Session) (site : Site) (path : Path) (follow : Bool) (r : Resolution) : Prop :=
  (s.trace site path follow).outcome = .ok r

/-- The reports of walks. -/
def hopReports (hops : List Hop) : List Event := hops.map fun hop => .followed hop.link hop.onward

theorem eval_forM_report (hops : List Hop) (site : Site) :
    Action.eval (hops.forM fun hop => Work.report (.followed hop.link hop.onward)) site =
      (.ok (), site.told (hopReports hops)) := by
  induction hops generalizing site with
  | nil => simp [hopReports]
  | cons hop hops ih =>
    change Action.eval (Work.report _ >>= fun _ => hops.forM _) site = _
    rw [Action.eval_bind, Work.eval_report]
    refine (ih _).trans ?_
    simp [hopReports]

/-- Resolving reads the site and reports the links that are followed. -/
theorem eval_resolve (s : Session) (path : Path) (follow : Bool) (site : Site) :
    (s.resolve path follow).eval site =
      ((s.trace site path follow).outcome,
        site.told (hopReports (s.trace site path follow).hops)) := by
  unfold resolve resolveWithin
  rw [Action.eval_bind, Action.eval_get]
  dsimp only
  rw [Action.eval_bind, eval_forM_report]
  rfl

theorem quiet_resolve (s : Session) (path : Path) (follow : Bool) :
    Work.Quiet (s.resolve path follow) := fun site =>
  ⟨_, congrArg Prod.snd (eval_resolve s path follow site)⟩

/-- A required entry is the end of its path. -/
theorem eval_require (s : Session) (path : Path) (follow : Bool) (site : Site) :
    (s.require path follow).eval site =
      (match (s.trace site path follow).outcome with
        | .error e => .error e
        | .ok r => match r.status with
          | some status => .ok (r, status)
          | none => .error (.notFound path.text),
        site.told (hopReports (s.trace site path follow).hops)) := by
  unfold require
  rw [Action.eval_bind, eval_resolve]
  rcases (s.trace site path follow).outcome with e | r
  · rfl
  · dsimp only
    cases r.status <;> rfl

theorem quiet_require (s : Session) (path : Path) (follow : Bool) :
    Work.Quiet (s.require path follow) := fun site =>
  ⟨_, congrArg Prod.snd (eval_require s path follow site)⟩

end Session

end MountSpace
