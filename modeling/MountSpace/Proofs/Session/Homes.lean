import MountSpace.Proofs.Session.Upkeep
import MountSpace.Proofs.Store.Home

/-!
# Work and the homes of disks

All that clients may ask for keeps the homes of disks, but for deleting and moving what a disk reads
as its root.

## Main definitions

* `Site.HomesStay` — every home is still there.
* `Mount.Rooted` — a mount reports its root as a directory.
* `Resolution.ReadsRoot` — the store takes the path for its root.
* `Session.Takes` — a request that takes an entry away, and where its source is.

Main statements: `Mount.Rooted.of_stay`, `Session.homesStay_delete`, `Session.homesStay_move`.
-/

namespace MountSpace

open MountSpace.Path

/-- Every home is still there. -/
def Site.HomesStay (site after : Site) : Prop :=
  ∀ host, (site.disk host).Homed → (after.disk host).Homed

theorem Site.homesStay_of_disk {site after : Site}
    (h : ∀ host, after.disk host = site.disk host) : site.HomesStay after :=
  fun host hd => h host ▸ hd

theorem Disk.stable_homed : Disk.Stable Disk.Homed :=
  stable_of_amended fun hd ha => hd.of_stay (HostTree.stay_of_amended ha)

/-- A disk that nobody has made has no home. -/
theorem Disk.not_homed_homeless (limits : HostLimits) (now : Instant) :
    ¬(Disk.homeless limits now).Homed := by
  intro h
  have hnode : (Disk.homeless limits now).tree.node? [Disk.home] = none := rfl
  exact absurd (hnode.symm.trans h.node) (by simp)

/-! ## Roots of mounts -/

theorem Table.status_root (t : Table) : t.status "/" = .ok (some rootStatus) :=
  status_of_root (by decide +kernel)

namespace Mount

variable {m : Mount} {site after : Site}

/-- A mount reports its root as a directory. -/
def Rooted (m : Mount) (site : Site) : Prop :=
  ∃ status, m.statusIn site "/" = .ok (some status) ∧ status.kind = .directory

instance (m : Mount) (site : Site) : Decidable (m.Rooted site) :=
  match h : m.statusIn site "/" with
  | .ok (some status) => decidable_of_iff (status.kind = .directory) (by simp [Rooted, h])
  | .ok none => isFalse (by simp [Rooted, h])
  | .error _ => isFalse (by simp [Rooted, h])

/-- Where homes stay, so do roots: a disk reports its home, and a table has its root anyway. -/
theorem Rooted.of_stay (h : m.Rooted site) (hs : site.HomesStay after) : m.Rooted after := by
  unfold Rooted statusIn Connection.statusIn at h ⊢
  cases hstorage : m.connection.backend.storage with
  | disk host =>
    rw [hstorage] at h
    exact Disk.rooted_iff.mpr (hs host (Disk.rooted_iff.mp h))
  | table name =>
    rw [hstorage] at h
    dsimp only at h ⊢
    cases hT : m.connection.tableIn name with
    | error e =>
      obtain ⟨status, hstatus, -⟩ := h
      rw [hT] at hstatus
      cases hstatus
    | ok T => exact ⟨_, Table.status_root (after.table T), rfl⟩

end Mount

/-- The store of a path takes it for its root. -/
def Resolution.ReadsRoot (r : Resolution) : Prop :=
  ∃ p, Path.read r.path.localText = .ok p ∧ p.isRoot = true

/-! ## Taking entries away -/

namespace Session

variable {s : Session} {site after : Site} {raw : String}

/-- A request takes away the entry at the end of a path: it deletes the entry or moves it. -/
inductive Takes (s : Session) (site : Site) : Request → Resolution → Prop
  | delete {raw : String} {recursive : Bool} {path : Path} {r : Resolution} {status : Status} :
      s.qualified (.text raw) = .ok path → s.Resolves site path false r →
      r.status = some status → Takes s site (.delete raw recursive) r
  | move {raw dst : String} {overwrite : Bool} {path : Path} {r : Resolution} {status : Status} :
      s.qualified (.text raw) = .ok path → s.Resolves site path false r →
      r.status = some status → Takes s site (.move raw dst overwrite) r

/-- What is there under a path that is not read as the root is below the root. -/
theorem Ending.below_home {r : Resolution} {follow : Bool} (h : s.Ending site follow r)
    (hno : ¬r.ReadsRoot) {host : String} (hstorage : r.mount.backend.storage = .disk host)
    {status : Status} (hs : r.status = some status) :
    settle r.path.segments ≠ [] ∧
      (site.disk host).status (rootText r.path.segments) = .ok (some status) := by
  have hstatus : (site.disk host).status (rootText r.path.segments) = .ok (some status) := by
    have hin : r.mount.statusIn site (rootText r.path.segments) = .ok (some status) :=
      (h.of_status hs).2
    unfold Mount.statusIn Connection.statusIn Mount.connection at hin
    rwa [hstorage] at hin
  refine ⟨fun hnil => hno ?_, hstatus⟩
  obtain ⟨p, hread⟩ := Disk.read_of_status hstatus
  refine ⟨p, by rw [h.localText_eq, hread], ?_⟩
  rw [eq_of_read_rootText h.ordinary hread, hnil]
  rfl

/-- Work on a mount keeps homes when what is done on the disk of the mount does. -/
theorem homesStay_within {α : Type} {m : Mount} {work : Connection → Work α} {events : List Event}
    {res : Except Error α} (h : (m.within work).eval (site.told events) = (res, after))
    (hw : site.HomesStay ((work m.connection).eval (site.told events)).2) :
    site.HomesStay after := by
  intro host hd
  have hdisk := m.disk_within work (site.told events) host
  rw [h] at hdisk
  rw [hdisk]
  exact hw host hd

/-- **Deleting keeps the homes** when what is deleted is not read as a root. -/
theorem homesStay_delete (hs : s.standpoint.Proper) {recursive : Bool} {res : Except Error Bool}
    (hno : ∀ r, s.Takes site (.delete raw recursive) r → ¬r.ReadsRoot)
    (h : (s.delete (.text raw) recursive).eval site = (res, after)) : site.HomesStay after := by
  rcases delete_cases h with ⟨events, rfl⟩ | ⟨path, r, status, events, hpath, hr, hstatus, -, hd⟩
  · exact Site.homesStay_of_disk fun _ => rfl
  have hcomplete := complete_of_qualified hs hpath
  have hending := hr.ending hcomplete.normal hcomplete.absolute
  apply homesStay_within hd
  cases hstorage : r.mount.backend.storage with
  | table name =>
    have hdelete := r.mount.connection.delete_onTable hstorage r.path.localText recursive
    rw [hdelete]
    exact Connection.keeps_withTable (site.told events)
  | disk host =>
    have hdelete := r.mount.connection.delete_onDisk hstorage r.path.localText recursive
    obtain ⟨hne, -⟩ := hending.below_home (hno r (.delete hpath hr hstatus)) hstorage hstatus
    rw [hdelete, hending.localText_eq]
    have hstay : (site.told events).HomesStay
        ((Work.onDisk host fun now d => d.delete now (rootText r.path.segments) recursive).eval
          (site.told events)).2 :=
      fun _ => Work.disk_onDisk fun hd => hd.delete hending.ordinary hne _ recursive
    exact hstay

/-- **Moving keeps the homes** when what is moved is not read as a root. -/
theorem homesStay_move (hs : s.standpoint.Proper) {dst : String} {overwrite : Bool}
    {res : Except Error Unit} (hno : ∀ r, s.Takes site (.move raw dst overwrite) r → ¬r.ReadsRoot)
    (h : (s.move (.text raw) (.text dst) overwrite).eval site = (res, after)) :
    site.HomesStay after := by
  rcases move_cases h with ⟨events, rfl, -⟩ | ⟨srcPath, dstPath, source, dest, status, events,
    hsrc, hdst, hsource, hdest, hstatus, -, -, -, -, -, hmove⟩
  · exact Site.homesStay_of_disk fun _ => rfl
  have hsrcComplete := complete_of_qualified hs hsrc
  have hdstComplete := complete_of_qualified hs hdst
  have hfrom := hsource.ending hsrcComplete.normal hsrcComplete.absolute
  have hto := hdest.ending hdstComplete.normal hdstComplete.absolute
  apply homesStay_within hmove
  cases hstorage : source.mount.backend.storage with
  | table name =>
    have hkeeps : (source.mount.connection.move source.path.localText dest.path.localText
        overwrite).Keeps Disk.Homed := by
      rw [source.mount.connection.move_onTable hstorage]
      exact Connection.keeps_changeTable.bind fun _ => (Work.quiet_ofExcept _).keeps.bind fun _ =>
        (Work.quiet_ofExcept _).keeps.bind fun _ => (Work.quiet_report _).keeps
    exact hkeeps (site.told events)
  | disk host =>
    have hdisk := source.mount.connection.move_onDisk hstorage source.path.localText
      dest.path.localText overwrite
    obtain ⟨hne, hthere⟩ := hfrom.below_home (hno source (.move hsrc hsource hstatus)) hstorage
      hstatus
    rw [hdisk, hfrom.localText_eq, hto.localText_eq]
    have hstay : (site.told events).HomesStay
        ((Work.onDisk host fun now d => d.move now (rootText source.path.segments)
          (rootText dest.path.segments) overwrite).eval (site.told events)).2 :=
      fun _ => Work.disk_onDisk fun hd =>
        hd.move hfrom.ordinary hto.ordinary hne hthere _ overwrite
    exact hstay

end Session

end MountSpace
