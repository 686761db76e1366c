import MountSpace.Proofs.Session.Order
import MountSpace.Proofs.Store.Edits

/-!
# What work keeps of disks

Work is put together from steps, and what each step keeps of the disks, work keeps as a whole.  So a
property of disks that every operation of a disk keeps is kept by all that happens.  Operations that
take entries away are left to whoever asks, since a property may need more to survive them.

## Main definitions

* `Work.Keeps` — work that keeps a property of disks.
* `Disk.Stable` — a property that the operations keep which take nothing away.

Main statements: `Request.keeps`, `Scene.keeps_after`.
-/

namespace MountSpace

open Relation

/-- Kept by every operation of a disk that takes no entry away. -/
structure Disk.Stable (P : Disk → Prop) : Prop where
  write : ∀ {d : Disk}, P d → ∀ now path data overwrite, P (d.write now path data overwrite).2
  append : ∀ {d d' : Disk} {now path data}, P d → d.append now path data = .ok d' → P d'
  makeDirectory : ∀ {d d' : Disk} {now path}, P d → d.makeDirectory now path = .ok d' → P d'
  makeLink : ∀ {d d' : Disk} {now path target}, P d → d.makeLink now path target = .ok d' → P d'
  setTimes : ∀ {d d' : Disk} {path accessed modified}, P d →
    d.setTimes path accessed modified = .ok d' → P d'

/-- What survives every change that keeps the directories is stable. -/
theorem Disk.stable_of_amended {P : Disk → Prop}
    (h : ∀ {d d' : Disk}, P d →
      ReflTransGen (HostTree.Amends fun _ => True) d.tree d'.tree → P d') :
    Disk.Stable P where
  write hd _ _ _ _ := h hd (amended_write ..)
  append hd ha := h hd (amended_append ha)
  makeDirectory hd hm := h hd (amended_makeDirectory hm)
  makeLink hd hl := h hd (amended_makeLink trivial hl)
  setTimes hd hs := h hd (amended_setTimes hs)

/-- Work that keeps a property of disks. -/
def Work.Keeps {α : Type} (P : Disk → Prop) (w : Work α) : Prop :=
  ∀ (site : Site) (host : String), P (site.disk host) → P ((w.eval site).2.disk host)

variable {P : Disk → Prop}

theorem Site.disk_setDisk {site : Site} {host other : String} {d : Disk} :
    (site.setDisk host d).disk other = if other = host then d else site.disk other := by
  unfold disk setDisk
  split
  · rename_i heq
    rw [heq, lookup_setEntry_self]
    rfl
  · rename_i hne
    rw [lookup_setEntry_of_ne hne]

/-! ## Steps of work -/

namespace Work

variable {α β : Type} {w : Work α} {host : String}

theorem Quiet.keeps (h : w.Quiet) : w.Keeps P := by
  intro site host hd
  obtain ⟨events, hsite⟩ := h site
  rw [hsite]
  exact hd

theorem keeps_of_site (h : ∀ site, (w.eval site).2 = site) : w.Keeps P := by
  intro site host hd
  rwa [h]

theorem Keeps.bind {f : α → Work β} (hw : w.Keeps P) (hf : ∀ a, (f a).Keeps P) :
    (w >>= f).Keeps P := by
  intro site host hd
  rw [Action.eval_bind]
  have hfirst := hw site host hd
  rcases hw' : w.eval site with ⟨e | a, mid⟩ <;> rw [hw'] at hfirst
  · exact hfirst
  · exact hf a mid host hfirst

theorem Keeps.map (hw : w.Keeps P) (f : α → β) : (f <$> w).Keeps P := by
  intro site host hd
  rw [Action.eval_map]
  exact hw site host hd

theorem Keeps.ite {c : Prop} [Decidable c] {v : Work α} (hw : w.Keeps P) (hv : v.Keeps P) :
    (if c then w else v).Keeps P := by
  split
  · exact hw
  · exact hv

theorem Keeps.check {c : Prop} [Decidable c] {e : Error} {f : Unit → Work β}
    (hf : (f ()).Keeps P) : Keeps P (if c then throw e >>= f else f ()) :=
  Keeps.ite (keeps_of_site fun _ => rfl) hf

/-- An operation on a disk keeps what it keeps of that disk. -/
theorem disk_onDisk {g : Instant → Disk → Except Error α × Disk} {site : Site}
    (hg : P (site.disk host) → P (g site.now (site.disk host)).2) {other : String}
    (hd : P (site.disk other)) : P (((onDisk host g).eval site).2.disk other) := by
  have heval : ((onDisk host g).eval site).2 =
      site.setDisk host (g site.now (site.disk host)).2 := rfl
  rw [heval, Site.disk_setDisk]
  split
  · rename_i heq
    exact hg (heq ▸ hd)
  · exact hd

theorem keeps_onDisk {g : Instant → Disk → Except Error α × Disk}
    (hg : ∀ now d, P d → P (g now d).2) : (onDisk host g).Keeps P :=
  fun _ _ hd => disk_onDisk (hg _ _) hd

theorem keeps_onTable {name : TableName} {f : Instant → Table → Except Error (α × Table)} :
    (onTable name f).Keeps P := by
  intro site host hd
  unfold onTable
  rw [Action.eval_ofFun]
  split <;> exact hd

end Work

/-! ## Operations of mounts -/

namespace Connection

variable {c : Connection} {name host path : String}

theorem keeps_withTable {α : Type} {f : Instant → Table → Except Error (α × Table)} :
    (c.withTable name f).Keeps P :=
  (Work.quiet_ofExcept _).keeps.bind fun _ => Work.keeps_onTable

theorem keeps_changeTable {f : Instant → Table → Except Error Table} :
    (c.changeTable name f).Keeps P := keeps_withTable

theorem keeps_changeDisk {f : Instant → Disk → Except Error Disk}
    (hf : ∀ now d d', P d → f now d = .ok d' → P d') : (changeDisk host f).Keeps P := by
  refine Work.keeps_onDisk fun now d hd => ?_
  cases hop : f now d with
  | error e => exact hd
  | ok d' => exact hf now d d' hd hop

theorem keeps_delete (hP : ∀ now d path recursive, P d → P (Disk.delete d now path recursive).2)
    (recursive : Bool) : (c.delete path recursive).Keeps P := by
  unfold Connection.delete
  split
  · exact Work.keeps_onDisk fun now d hd => hP now d path recursive hd
  · exact keeps_withTable

theorem keeps_move
    (hP : ∀ now d src dest overwrite, P d → P (Disk.move d now src dest overwrite).2)
    (dest : String) (overwrite : Bool) : (c.move path dest overwrite).Keeps P := by
  unfold Connection.move
  split
  · exact Work.keeps_onDisk fun now d hd => hP now d path dest overwrite hd
  · exact keeps_changeTable.bind fun _ => (Work.quiet_ofExcept _).keeps.bind fun _ =>
      (Work.quiet_ofExcept _).keeps.bind fun _ => (Work.quiet_report _).keeps

theorem keeps_write {data : Bytes} {overwrite : Bool}
    (hP : ∀ now d, P d → P (Disk.write d now path data overwrite).2) :
    (c.write path data overwrite).Keeps P := by
  unfold Connection.write
  split
  · exact Work.keeps_onDisk hP
  · exact keeps_changeTable

theorem keeps_append {data : Bytes}
    (hP : ∀ now d d', P d → Disk.append d now path data = .ok d' → P d') :
    (c.append path data).Keeps P := by
  unfold Connection.append
  split
  · exact keeps_changeDisk hP
  · exact keeps_changeTable

theorem keeps_makeDirectory
    (hP : ∀ now d d', P d → Disk.makeDirectory d now path = .ok d' → P d') :
    (c.makeDirectory path).Keeps P := by
  unfold Connection.makeDirectory
  split
  · exact keeps_changeDisk hP
  · exact keeps_changeTable

theorem keeps_makeLink {target : String}
    (hP : ∀ now d d', P d → Disk.makeLink d now path target = .ok d' → P d') :
    (c.makeLink path target).Keeps P := by
  unfold Connection.makeLink
  split
  · exact keeps_changeDisk hP
  · exact keeps_changeTable

theorem keeps_setTimes {accessed modified : Option Moment}
    (hP : ∀ d d', P d → Disk.setTimes d path accessed modified = .ok d' → P d') :
    (c.setTimes path accessed modified).Keeps P := by
  unfold Connection.setTimes
  split
  · exact keeps_changeDisk fun _ => hP
  · exact keeps_changeTable

end Connection

namespace Mount

variable {α : Type} {m : Mount}

/-- Undoing what was done to tables leaves the disks. -/
theorem disk_within (m : Mount) (work : Connection → Work α) (site : Site) (host : String) :
    ((m.within work).eval site).2.disk host = ((work m.connection).eval site).2.disk host := by
  rw [eval_within]
  rcases (work m.connection).eval site with ⟨e | a, t⟩
  · dsimp only
    split <;> rfl
  · rfl

theorem keeps_within {work : Connection → Work α} (h : (work m.connection).Keeps P) :
    (m.within work).Keeps P := by
  intro site host hd
  rw [disk_within]
  exact h site host hd

end Mount

/-! ## Requests -/

namespace Session

variable {s : Session} (hP : Disk.Stable P)

include hP

theorem keeps_makeDirectories (c : Connection) (dir : Path) (names : List String) :
    (makeDirectories c dir names).Keeps P := by
  induction names generalizing dir with
  | nil => exact Work.keeps_of_site fun _ => rfl
  | cons name rest ih =>
    unfold makeDirectories
    refine (c.quiet_status _).keeps.bind fun found => Work.Keeps.ite ?_ (ih _)
    exact (Connection.keeps_makeDirectory fun _ _ _ => hP.makeDirectory).bind fun _ => ih _

theorem keeps_prepareParent (r : Resolution) (asked : Path) (createParent : Bool) :
    (prepareParent r asked createParent).Keeps P := by
  unfold prepareParent
  refine Work.Keeps.ite (Work.keeps_of_site fun _ => rfl)
    (Work.Keeps.ite ?_ (Work.keeps_of_site fun _ => rfl))
  unfold makeParents
  split
  · exact Work.keeps_of_site fun _ => rfl
  · exact Mount.keeps_within (keeps_makeDirectories hP _ _ _)

theorem keeps_makeLink (target link : PathArg) (createParent : Bool) :
    (s.makeLink target link createParent).Keeps P := by
  unfold makeLink
  refine .check ((Work.quiet_ofExcept _).keeps.bind fun target =>
    (Work.quiet_ofExcept _).keeps.bind fun path =>
    (quiet_resolve s path false).keeps.bind fun r => .check ?_)
  refine (keeps_prepareParent hP r path createParent).bind fun _ => ?_
  exact (Mount.keeps_within (Connection.keeps_makeLink fun _ _ _ => hP.makeLink)).bind fun _ =>
    (Work.quiet_report _).keeps

theorem keeps_createFile (arg : PathArg) (overwrite createParent : Bool) :
    (s.createFile arg overwrite createParent).Keeps P := by
  unfold createFile
  refine (Work.quiet_ofExcept _).keeps.bind fun path =>
    (quiet_resolve s path true).keeps.bind fun r => ?_
  have hwrite : ∀ u : Unit, (do
      r.mount.within fun c => c.write r.path.localText [] overwrite
      return ({ path }, ⟨r.mount, r.path.localText, .replace⟩) :
        Work (OutputStream × Sink)).Keeps P := fun _ =>
    (Mount.keeps_within (Connection.keeps_write fun _ _ hd => hP.write hd _ _ _ _)).bind fun _ =>
      (Work.quiet_pure _).keeps
  split
  · exact .check (.check (hwrite ()))
  · exact (keeps_prepareParent hP r path createParent).bind hwrite

theorem keeps_makeDirectory (arg : PathArg) (createParent : Bool) :
    (s.makeDirectory arg createParent).Keeps P := by
  unfold makeDirectory
  refine (Work.quiet_ofExcept _).keeps.bind fun path =>
    (quiet_resolve s path true).keeps.bind fun r => ?_
  split
  · split <;> exact Work.keeps_of_site fun _ => rfl
  · exact (keeps_prepareParent hP r path createParent).bind fun _ =>
      Mount.keeps_within (Connection.keeps_makeDirectory fun _ _ _ => hP.makeDirectory)

theorem keeps_setTimes (arg : PathArg) (accessed modified : Option Moment) :
    (s.setTimes arg accessed modified).Keeps P := by
  unfold setTimes
  refine (Work.quiet_ofExcept _).keeps.bind fun path =>
    (quiet_require s path true).keeps.bind fun found => ?_
  dsimp only
  exact .ite (Mount.keeps_within (Connection.keeps_setTimes fun _ _ => hP.setTimes))
    (Work.quiet_report _).keeps

omit hP

theorem keeps_delete (hP : ∀ now d path recursive, P d → P (Disk.delete d now path recursive).2)
    (arg : PathArg) (recursive : Bool) : (s.delete arg recursive).Keeps P := by
  intro site host hd
  rcases h : (s.delete arg recursive).eval site with ⟨res, after⟩
  rcases delete_cases h with ⟨events, rfl⟩ | ⟨_, r, _, events, -, -, -, -, hdelete⟩
  · exact hd
  · have hwork : (r.mount.within fun c => c.delete r.path.localText recursive).Keeps P :=
      Mount.keeps_within (Connection.keeps_delete hP recursive)
    have hkept := hwork (site.told events) host hd
    rwa [hdelete] at hkept

theorem keeps_move
    (hP : ∀ now d src dest overwrite, P d → P (Disk.move d now src dest overwrite).2)
    (src dst : PathArg) (overwrite : Bool) : (s.move src dst overwrite).Keeps P := by
  intro site host hd
  rcases h : (s.move src dst overwrite).eval site with ⟨res, after⟩
  rcases move_cases h with ⟨events, rfl, -⟩ |
    ⟨_, _, source, dest, _, events, -, -, -, -, -, -, -, -, -, -, hmove⟩
  · exact hd
  · have hwork : (source.mount.within fun c =>
        c.move source.path.localText dest.path.localText overwrite).Keeps P :=
      Mount.keeps_within (Connection.keeps_move hP _ overwrite)
    have hkept := hwork (site.told events) host hd
    rwa [hmove] at hkept

end Session

/-- A request that takes an entry away from its place. -/
def Request.Removes : Request → Prop
  | .delete .. | .move .. => True
  | _ => False

/-- **Requests keep what is stable** unless they take an entry away. -/
theorem Request.keeps (hP : Disk.Stable P) (s : Session) {q : Request} (hq : ¬q.Removes) :
    (q.work s).Keeps P := by
  by_cases hreads : q.Reads
  · exact (hreads.quiet s).keeps
  cases q with
  | makeLink target link createParent =>
    exact (Session.keeps_makeLink hP _ _ _).bind fun _ => (Work.quiet_pure _).keeps
  | createFile path overwrite createParent =>
    exact (Session.keeps_createFile hP _ _ _).bind fun _ => (Work.quiet_pure _).keeps
  | makeDirectory path createParent =>
    exact (Session.keeps_makeDirectory hP _ _).bind fun _ => (Work.quiet_pure _).keeps
  | setTimes path accessed modified =>
    exact (Session.keeps_setTimes hP _ _ _).bind fun _ => (Work.quiet_pure _).keeps
  | delete | move => exact absurd trivial hq
  | _ => exact absurd trivial hreads

/-! ## Deeds -/

namespace Scene

variable {scene : Scene} {deed : Deed} {host : String}

theorem keeps_commit (hP : Disk.Stable P) (sink : Sink) (data : Bytes) :
    (sink.commit data).Keeps P := by
  unfold Sink.commit
  apply Mount.keeps_within
  cases sink.mode with
  | replace => exact Connection.keeps_write fun _ _ hd => hP.write hd _ _ _ _
  | extend => exact Connection.keeps_append fun _ _ _ => hP.append

/-- A disk that somebody has made does not depend on the time. -/
theorem disk_wait (hnew : ∀ now now' : Instant, P (.homeless {} now) → P (.homeless {} now'))
    (site : Site) (now : Instant) (hd : P (site.disk host)) :
    P (Site.disk { site with now } host) := by
  unfold Site.disk at hd ⊢
  cases hl : site.disks.lookup host with
  | some d =>
    rw [hl] at hd
    exact hd
  | none =>
    rw [hl] at hd
    exact hnew _ _ hd

/-- **A deed keeps what is stable** if its request does. -/
theorem keeps_after (hP : Disk.Stable P)
    (hnew : ∀ now now' : Instant, P (.homeless {} now) → P (.homeless {} now'))
    (hq : ∀ client q, deed = .request client q → P (scene.site.disk host) →
      P (((q.work (scene.session client)).eval scene.site).2.disk host))
    (hd : P (scene.site.disk host)) : P ((scene.after deed).site.disk host) := by
  cases deed with
  | request client q =>
    rw [site_after_request]
    exact hq client q rfl hd
  | write stream data =>
    rw [site_after_write]
    exact hd
  | close stream =>
    rcases site_after_close scene stream with hsame | ⟨s, sink, -, -, hafter⟩
    · rw [hsame]
      exact hd
    · rw [hafter]
      exact keeps_commit hP sink s.buffer scene.site host hd
  | discard stream =>
    rw [site_after_discard]
    exact hd
  | wait now => exact disk_wait hnew scene.site now hd

end Scene

end MountSpace
