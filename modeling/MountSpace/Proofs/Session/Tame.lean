import MountSpace.Proofs.Session.Operations
import MountSpace.Proofs.Session.Stores
import MountSpace.Proofs.Store.Confined

/-!
# Scripts that follow no link of the host

A disk leaves the last name of a path to the host, and some primitives follow a link there.  A
script is tame if no call of it leads a disk through a link, on the way or at the end, and it is not
refused for one.  What is tame is found out step by step, with what is known of the site in between.

## Main definitions

* `Primitive.FollowsLast` — the primitives that follow a link in the last place.
* `Call.Confined` — a call that follows no link of the host.
* `Piece.Tame`, `Script.Tame` — work and scripts with such calls only, none of them refused.
* `Mount.Confines`, `Mount.Unlinked` — what a call needs to find on the disk.

Main statements: `Piece.Tame.bind`, `Script.Tame.bind`, `Piece.tame_call`.
-/

namespace MountSpace

open MountSpace.Path

/-! ## Calls -/

/-- The primitives for which the host follows a link in the last place. -/
def Primitive.FollowsLast : Primitive → Prop
  | content _ | list _ | append _ _ | setTimes _ _ _ => True
  | _ => False

/-- A call that follows no link of the host.  Whatever stands on the way to a path that a disk is
handed is a directory, and no link stands at its end if the primitive would follow it. -/
def Call.Confined (call : Call) : Prop :=
  ∀ host, call.connection.backend.storage = .disk host →
    ∀ path ∈ call.primitive.paths, ∀ p, Path.read path = .ok p →
      (call.site.disk host).Confined p.segments ∧
        (call.primitive.FollowsLast → ∀ text,
          (call.site.disk host).tree.node? (Disk.home :: p.segments) ≠ some (.link text))

/-- Work is not refused if neither of its parts is. -/
theorem Work.allowed_bind {α β : Type} {w : Work α} {f : α → Work β} {site : Site}
    (hw : Allowed (w.eval site).1)
    (hf : ∀ a t, w.eval site = (.ok a, t) → Allowed ((f a).eval t).1) :
    Allowed ((w >>= f).eval site).1 := by
  rw [Action.eval_bind]
  rcases hrun : w.eval site with ⟨e | a, t⟩
  · rw [hrun] at hw
    exact allowed_error (hw e rfl)
  · exact hf a t hrun

/-! ## Pieces of work -/

namespace Piece

/-- No call of the work follows a link of the host, and the work is not refused for one. -/
structure Tame {α : Type} (p : Piece α) (c : Connection) (site : Site) : Prop where
  calls : ∀ call ∈ p.calls c site, call.Confined
  allowed : Allowed ((p.run .stores c).eval site).1

variable {α β : Type} {p : Piece α} {f : α → Piece β} {c : Connection} {site : Site}

theorem tame_pure (a : α) : (pure a : Piece α).Tame c site :=
  ⟨List.forall_mem_nil _, allowed_ok a⟩

theorem tame_fail {e : Error} (he : e.kind ≠ .permissionDenied) :
    (fail e : Piece α).Tame c site :=
  ⟨List.forall_mem_nil _, allowed_error he⟩

/-- What follows is tame where it sets out. -/
theorem Tame.bind (hp : p.Tame c site)
    (hf : ∀ a t, (p.run .stores c).eval site = (.ok a, t) → (f a).Tame c t) :
    (p >>= f).Tame c site := by
  constructor
  · intro call hcall
    rw [calls_bind] at hcall
    rcases List.mem_append.mp hcall with hcall | hcall
    · exact hp.calls call hcall
    rcases hrun : (p.run .stores c).eval site with ⟨e | a, t⟩ <;> rw [hrun] at hcall
    · cases hcall
    · exact (hf a t hrun).calls call hcall
  · exact Work.allowed_bind hp.allowed fun a t hrun => (hf a t hrun).allowed

end Piece

/-! ## Scripts -/

namespace Script

/-- No call of the script follows a link of the host, and the script is not refused for one. -/
structure Tame {α : Type} (x : Script α) (site : Site) : Prop where
  calls : ∀ call ∈ x.calls site, call.Confined
  allowed : Allowed ((x.run .stores).eval site).1

variable {α β : Type} {x : Script α} {f : α → Script β} {site : Site} {e : Error}

theorem tame_ofExcept {r : Except Error α} (h : Allowed r) : (ofExcept r).Tame site :=
  ⟨List.forall_mem_nil _, h⟩

theorem tame_pure (a : α) : (pure a : Script α).Tame site := tame_ofExcept (allowed_ok a)

theorem tame_fail (he : e.kind ≠ .permissionDenied) : (fail e : Script α).Tame site :=
  tame_ofExcept (allowed_error he)

theorem tame_report (event : Event) : (report event).Tame site :=
  ⟨List.forall_mem_nil _, allowed_ok ()⟩

theorem tame_within {m : Mount} {p : Piece α} (h : p.Tame m.connection site) :
    (within m p).Tame site := by
  refine ⟨h.calls, ?_⟩
  have hwork := h.allowed
  rw [run_within, Driver.stores_within, Mount.eval_within]
  rcases hrun : (p.run .stores m.connection).eval site with ⟨e | a, t⟩
  · rw [hrun] at hwork
    exact allowed_error (hwork e rfl)
  · exact allowed_ok a

/-- What follows is tame where it sets out. -/
theorem Tame.bind (hx : x.Tame site)
    (hf : ∀ a t, (x.run .stores).eval site = (.ok a, t) → (f a).Tame t) : (x >>= f).Tame site := by
  constructor
  · intro call hcall
    rw [calls_bind] at hcall
    rcases List.mem_append.mp hcall with hcall | hcall
    · exact hx.calls call hcall
    rcases hrun : (x.run .stores).eval site with ⟨e | a, t⟩ <;> rw [hrun] at hcall
    · cases hcall
    · exact (hf a t hrun).calls call hcall
  · exact Work.allowed_bind hx.allowed fun a t hrun => (hf a t hrun).allowed

theorem tame_ofExcept_bind {r : Except Error α} (hr : Allowed r)
    (hf : ∀ a, r = .ok a → (f a).Tame site) : (ofExcept r >>= f).Tame site :=
  (tame_ofExcept hr).bind fun a t hrun => by
    obtain ⟨ha, rfl⟩ := Prod.mk.inj hrun
    exact hf a ha

theorem Tame.map (hx : x.Tame site) (g : α → β) : (g <$> x).Tame site :=
  hx.bind fun a _ _ => tame_pure (g a)

theorem Tame.ite {c : Prop} [Decidable c] {y : Script α} (hx : c → x.Tame site)
    (hy : ¬c → y.Tame site) : (if c then x else y).Tame site := by
  split
  · exact hx ‹_›
  · exact hy ‹_›

theorem Tame.check {c : Prop} [Decidable c] {f : Unit → Script α} (he : e.kind ≠ .permissionDenied)
    (hf : ¬c → (f ()).Tame site) : (if c then fail e >>= f else f () : Script α).Tame site := by
  split
  · exact (tame_fail he).bind fun _ _ h => by cases h
  · exact hf ‹_›

/-- What follows on an outcome may count on it that a failure is no refusal. -/
theorem Tame.attempt_bind {f : Except Error α → Script β} (hx : x.Tame site)
    (hok : ∀ a t, (x.run .stores).eval site = (.ok a, t) → (f (.ok a)).Tame t)
    (herror : ∀ e t, e.kind ≠ .permissionDenied → (x.run .stores).eval site = (.error e, t) →
      (f (.error e)).Tame t) : (x.attempt >>= f).Tame site := by
  have hattempt : x.attempt.Tame site := ⟨hx.calls, allowed_ok _⟩
  refine hattempt.bind fun r t hrun => ?_
  rw [run_attempt, Action.eval_attempt] at hrun
  cases hrun
  have hallowed := hx.allowed
  rcases hrun : (x.run .stores).eval site with ⟨e | a, t⟩
  · rw [hrun] at hallowed
    exact herror e t (hallowed e rfl) hrun
  · exact hok a t hrun

end Script

/-! ## What a call needs -/

namespace Mount

variable {m : Mount} {site : Site} {names front : List String}

/-- If the mount is a disk, it has its home, and whatever stands on the way to the names is a
directory. -/
def Confines (m : Mount) (site : Site) (names : List String) : Prop :=
  ∀ host, m.backend.storage = .disk host →
    (site.disk host).Homed ∧ (site.disk host).Confined names

/-- If the mount is a disk, no link of the host stands at the end of the names. -/
def Unlinked (m : Mount) (site : Site) (names : List String) : Prop :=
  ∀ host, m.backend.storage = .disk host → ∀ text,
    (site.disk host).tree.node? (Disk.home :: names) ≠ some (.link text)

theorem Confines.of_prefix (h : m.Confines site names) (hf : front <+: names) :
    m.Confines site front := by
  intro host hs
  obtain ⟨hhome, hconfined⟩ := h host hs
  exact ⟨hhome, hconfined.of_prefix hf⟩

end Mount

namespace Connection

variable {α : Type} {c : Connection} {site : Site}

theorem allowed_tableIn (c : Connection) (name : String) : Allowed (c.tableIn name) := by
  unfold tableIn
  cases c.database with
  | some database => exact allowed_ok _
  | none => exact allowed_error (by simp [Error.kind])

theorem allowed_withTable {name : String} {f : Instant → Table → Except Error (α × Table)}
    (h : ∀ now t, Allowed (f now t)) : Allowed ((c.withTable name f).eval site).1 := by
  refine Work.allowed_bind (c.allowed_tableIn name) fun T t _ => ?_
  unfold Work.onTable
  rw [Action.eval_ofFun]
  rcases hf : f t.now (t.table T) with e | ⟨a, t'⟩
  · exact allowed_error (h _ _ e hf)
  · exact allowed_ok a

theorem allowed_changeTable {name : String} {f : Instant → Table → Except Error Table}
    (h : ∀ now t, Allowed (f now t)) : Allowed ((c.changeTable name f).eval site).1 :=
  allowed_withTable fun now t => (h now t).map _

theorem allowed_changeDisk {host : String} {f : Instant → Disk → Except Error Disk}
    (h : Allowed (f site.now (site.disk host))) : Allowed ((changeDisk host f).eval site).1 := by
  unfold changeDisk Work.onDisk
  rw [Action.eval_ofFun]
  dsimp only
  rcases hf : f site.now (site.disk host) with e | d
  · exact allowed_error (h e hf)
  · exact allowed_ok ()

/-- **A primitive is not refused** on ways that a disk does not refuse. -/
theorem allowed_perform (q : Primitive)
    (hw : ∀ host, c.backend.storage = .disk host → ∀ path ∈ q.paths,
      Allowed ((site.disk host).way path)) : Allowed ((c.perform q).eval site).1 := by
  cases hs : c.backend.storage with
  | disk host =>
    have hway := hw host hs
    cases q with
    | status path =>
      simp only [perform, Connection.status, statusIn, hs, Action.eval_peek]
      exact Disk.allowed_status (hway path (by simp [Primitive.paths]))
    | content path =>
      simp only [perform, Connection.content, hs, Action.eval_peek]
      exact Disk.allowed_content (hway path (by simp [Primitive.paths]))
    | list path =>
      simp only [perform, Connection.list, hs, Action.eval_peek]
      exact Disk.allowed_list (hway path (by simp [Primitive.paths]))
    | write path data overwrite =>
      simp only [perform, Connection.write, hs]
      exact Disk.allowed_write (hway path (by simp [Primitive.paths])) data overwrite
    | append path data =>
      simp only [perform, Connection.append, hs]
      exact allowed_changeDisk (Disk.allowed_append (hway path (by simp [Primitive.paths])) data)
    | makeDirectory path =>
      simp only [perform, Connection.makeDirectory, hs]
      exact allowed_changeDisk
        (Disk.allowed_makeDirectory (hway path (by simp [Primitive.paths])))
    | makeLink path target =>
      simp only [perform, Connection.makeLink, hs]
      exact allowed_changeDisk
        (Disk.allowed_makeLink (hway path (by simp [Primitive.paths])) target)
    | delete path recursive =>
      simp only [perform, Connection.delete, hs]
      exact Disk.allowed_delete (hway path (by simp [Primitive.paths])) recursive
    | move src dest overwrite =>
      simp only [perform, Connection.move, hs]
      exact Disk.allowed_move (hway src (by simp [Primitive.paths]))
        (hway dest (by simp [Primitive.paths])) overwrite
    | setTimes path accessed modified =>
      simp only [perform, Connection.setTimes, hs]
      exact allowed_changeDisk
        (Disk.allowed_setTimes (hway path (by simp [Primitive.paths])) accessed modified)
  | table name =>
    cases q with
    | status path =>
      simp only [perform, Connection.status, statusIn, hs, Action.eval_peek]
      exact (c.allowed_tableIn name).bind fun T _ => (site.table T).allowed_status path
    | content path =>
      simp only [perform, Connection.content, hs, Action.eval_peek]
      exact (c.allowed_tableIn name).bind fun T _ => (site.table T).allowed_content path
    | list path =>
      simp only [perform, Connection.list, hs, Action.eval_peek]
      exact (c.allowed_tableIn name).bind fun T _ => (site.table T).allowed_list path
    | write path data overwrite =>
      simp only [perform, Connection.write, hs]
      exact allowed_changeTable fun _ t => t.allowed_write path data overwrite
    | append path data =>
      simp only [perform, Connection.append, hs]
      exact allowed_changeTable fun _ t => t.allowed_append path data
    | makeDirectory path =>
      simp only [perform, Connection.makeDirectory, hs]
      exact allowed_changeTable fun _ t => t.allowed_makeDirectory path
    | makeLink path target =>
      simp only [perform, Connection.makeLink, hs]
      exact allowed_changeTable fun _ t => t.allowed_makeLink path target
    | delete path recursive =>
      simp only [perform, Connection.delete, hs]
      exact allowed_withTable fun _ t => t.allowed_delete path recursive
    | move src dest overwrite =>
      simp only [perform, Connection.move, hs]
      exact Work.allowed_bind (allowed_changeTable fun _ t => t.allowed_move src dest overwrite)
        fun _ _ _ => Work.allowed_bind (Table.allowed_key src) fun _ _ _ =>
          Work.allowed_bind (Table.allowed_key dest) fun _ _ _ => allowed_ok ()
    | setTimes path accessed modified =>
      simp only [perform, Connection.setTimes, hs]
      exact allowed_changeTable fun _ t => t.allowed_setTimes path accessed modified

end Connection

/-- **A call is tame** that is handed ways on which only directories stand, and no link at the end
of one that it would follow. -/
theorem Piece.tame_call {m : Mount} {site : Site} {q : Primitive}
    (h : ∀ path ∈ q.paths, ∃ names, path = rootText names ∧ Table.Plain names ∧
      m.Confines site names ∧ (q.FollowsLast → m.Unlinked site names)) :
    (call q).Tame m.connection site := by
  constructor
  · intro call hcall host hs path hpath p hread
    cases List.mem_singleton.mp hcall
    obtain ⟨names, rfl, hplain, hconfines, hunlinked⟩ := h path hpath
    obtain rfl := eq_of_read_rootText hplain.ordinary hread
    rw [hplain.settle_eq]
    exact ⟨(hconfines host hs).2, fun hf => hunlinked hf host hs⟩
  · refine Connection.allowed_perform q fun host hs path hpath => ?_
    obtain ⟨names, rfl, hplain, hconfines, -⟩ := h path hpath
    refine (hconfines host hs).1.allowed_way hplain.ordinary ?_
    rw [hplain.settle_eq]
    exact (hconfines host hs).2

end MountSpace
