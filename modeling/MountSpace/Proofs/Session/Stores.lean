import MountSpace.Proofs.Session.Homes
import MountSpace.Proofs.Session.Tables
import MountSpace.Proofs.Store.Confined

/-!
# The stores of mounts

What a mount reports is what its disk or its table reports.  What it does, it does to that store as
a whole or not at all, but for operations on disks that fail halfway; no other store changes.

Main statements: `Mount.within_onDisk`, `Mount.within_changeDisk`, `Mount.within_changeTable`.
-/

namespace MountSpace

namespace Mount

variable {α : Type} {m : Mount} {site after : Site} {host name path : String}

/-! ## What a mount reports -/

/-- What a mount reports is what its disk does. -/
theorem statusIn_disk (hs : m.backend.storage = .disk host) (site : Site) (path : String) :
    m.statusIn site path = (site.disk host).status path := by
  simp only [statusIn, Connection.statusIn, connection, hs]

theorem list_disk (hs : m.backend.storage = .disk host) (site : Site) (path : String) :
    (m.connection.list path).eval site = ((site.disk host).list path, site) := by
  simp only [Connection.list, connection, hs]
  rfl

/-- A mount that reports anything has a disk, or a table that it can reach. -/
theorem storage_cases {found : Option Status} (h : m.statusIn site path = .ok found) :
    (∃ host, m.backend.storage = .disk host) ∨ ∃ T, m.table? = some T := by
  unfold statusIn Connection.statusIn at h
  cases hs : m.backend.storage with
  | disk host => exact .inl ⟨host, rfl⟩
  | table name =>
    right
    cases hd : m.database with
    | some database => exact ⟨⟨database, name⟩, by simp [table?, hs, hd]⟩
    | none =>
      simp only [connection, hs, Connection.tableIn, hd] at h
      cases h

/-- The root of a disk is a directory when the mount reports it as one. -/
theorem Rooted.homed (h : m.Rooted site) (hs : m.backend.storage = .disk host) :
    (site.disk host).Homed := by
  unfold Rooted at h
  rw [statusIn_disk hs] at h
  exact Disk.rooted_iff.mp h

section Walked

variable {s : Session} {names : List String} {name : String} (hs : m.backend.storage = .disk host)
  (hhome : (site.disk host).Homed)

include hs hhome

/-- Where a walk has found directories all the way, the host has directories all the way. -/
theorem directory_of_confirmed (hp : Table.Plain names) (hc : (s.atlas site).Confirmed m names) :
    (site.disk host).tree.Open Disk.home names ∧
      (site.disk host).tree.node? (Disk.home :: names) = some .directory := by
  by_cases hnil : names = []
  · subst hnil
    exact ⟨HostTree.Base.open_nil hhome, HostTree.Base.node hhome⟩
  obtain ⟨status, hstatus, hk⟩ := hc names List.prefix_rfl hnil
  have hdisk : (site.disk host).status (Path.rootText names) = .ok (some status) :=
    (statusIn_disk hs site _).symm.trans hstatus
  obtain ⟨hopen, entry, hfind, hreport⟩ := hhome.open_of_status hp.ordinary hdisk
  rw [hp.settle_eq] at hopen hfind
  refine ⟨hopen, ?_⟩
  rw [HostTree.node?, hfind, Option.map_some, Disk.directory_of_report hreport hk]

/-- Where a walk has found nothing in a directory, nothing stands. -/
theorem find?_of_missing (hp : Table.Plain (names ++ [name]))
    (hc : (s.atlas site).Confirmed m names)
    (hmissing : (s.atlas site).lstat m (names ++ [name]) = .ok none) :
    (site.disk host).tree.find? (Disk.home :: (names ++ [name])) = none := by
  have hdisk : (site.disk host).status (Path.rootText (names ++ [name])) = .ok none :=
    (statusIn_disk hs site _).symm.trans hmissing
  obtain ⟨hopen, hdir⟩ :=
    directory_of_confirmed hs hhome (hp.of_prefix (List.prefix_append _ _)) hc
  exact hhome.find?_of_status_none hp.ordinary hp.settle_eq hopen hdir hdisk

end Walked

/-! ## What a mount does -/

/-- An operation on the disk of a mount is done on it as it stands, and nothing else changes. -/
theorem within_onDisk {work : Connection → Work α} {f : Instant → Disk → Except Error α × Disk}
    {res : Except Error α} (hwork : work m.connection = Work.onDisk host f)
    (h : (m.within work).eval site = (res, after)) :
    (f site.now (site.disk host)).1 = res ∧
      (∀ other, after.disk other = if other = host then (f site.now (site.disk host)).2
        else site.disk other) ∧ ∀ T, after.table T = site.table T := by
  have heval : (Work.onDisk host f).eval site = ((f site.now (site.disk host)).1,
      site.setDisk host (f site.now (site.disk host)).2) := rfl
  rw [eval_within, hwork, heval] at h
  cases hf : (f site.now (site.disk host)).1 with
  | ok a =>
    rw [hf] at h
    cases h
    exact ⟨rfl, fun other => Site.disk_setDisk, fun T => rfl⟩
  | error e =>
    rw [hf] at h
    obtain ⟨rfl, rfl⟩ := Prod.mk.inj h
    refine ⟨rfl, fun other => ?_, fun T => ?_⟩
    · split <;> exact Site.disk_setDisk
    · split <;> rfl

/-- An operation that gives the disk of a mount its next state succeeds, or leaves everything as it
is. -/
theorem within_changeDisk {work : Connection → Work Unit} {f : Instant → Disk → Except Error Disk}
    {res : Except Error Unit} (hwork : work m.connection = Connection.changeDisk host f)
    (h : (m.within work).eval site = (res, after)) :
    (∀ T, after.table T = site.table T) ∧
      ((∃ e, res = .error e) ∧ (∀ other, after.disk other = site.disk other) ∨
        ∃ d, f site.now (site.disk host) = .ok d ∧ res = .ok () ∧
          ∀ other, after.disk other = if other = host then d else site.disk other) := by
  obtain ⟨hres, hd, ht⟩ := within_onDisk hwork h
  refine ⟨ht, ?_⟩
  cases hf : f site.now (site.disk host) with
  | ok d =>
    rw [hf] at hres hd
    exact .inr ⟨d, rfl, hres.symm, hd⟩
  | error e =>
    rw [hf] at hres hd
    exact .inl ⟨⟨e, hres.symm⟩, fun other =>
      (hd other).trans (ite_eq_right_iff.mpr fun heq => by rw [heq])⟩

/-- An operation on the table of a mount succeeds, or leaves everything as it is. -/
theorem within_changeTable {work : Connection → Work Unit}
    {f : Instant → Table → Except Error Table} {res : Except Error Unit}
    (hs : m.backend.storage = .table name)
    (hwork : work m.connection = m.connection.changeTable name f)
    (h : (m.within work).eval site = (res, after)) :
    (∀ host, after.disk host = site.disk host) ∧
      ((∃ e, res = .error e) ∧ (∀ T, after.table T = site.table T) ∨
        ∃ T, m.table? = some T ∧ res = .ok () ∧
          f site.now (site.table T) = .ok (after.table T) ∧
          ∀ other, other ≠ T → after.table other = site.table other) := by
  have hsame : ∀ (e : Error) (t : Site), t = site →
      (if m.hasSessions then site.restoreTables t else t) = site := by
    rintro e t rfl
    split <;> rfl
  rw [eval_within, hwork] at h
  cases hT : m.table? with
  | none =>
    rw [eval_changeTable_of_none hT hs] at h
    obtain ⟨rfl, rfl⟩ := Prod.mk.inj h
    rw [hsame .sessionMissing site rfl]
    exact ⟨fun _ => rfl, .inl ⟨⟨_, rfl⟩, fun _ => rfl⟩⟩
  | some T =>
    rw [eval_changeTable hT hs] at h
    cases hf : f site.now (site.table T) with
    | error e =>
      rw [hf] at h
      obtain ⟨rfl, rfl⟩ := Prod.mk.inj h
      rw [hsame e site rfl]
      exact ⟨fun _ => rfl, .inl ⟨⟨e, rfl⟩, fun _ => rfl⟩⟩
    | ok t =>
      rw [hf] at h
      cases h
      refine ⟨fun _ => rfl, .inr ⟨T, rfl, rfl, ?_, fun other hne => ?_⟩⟩
      · rw [Site.table_setTable, if_pos rfl]
        exact hf
      · rw [Site.table_setTable, if_neg hne]

end Mount

end MountSpace
