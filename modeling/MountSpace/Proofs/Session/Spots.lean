import MountSpace.Proofs.Session.Stores
import MountSpace.Proofs.Store.Writes

/-!
# Spots

Where things are kept: at a place around a directory of the host, or under a key of a table.  Bytes
that are handed to a mount change what is kept at one spot.

## Main definitions

* `Spot` — a place of a disk or a key of a table.
* `Site.kept` — what is kept at a spot.
* `Mount.spot?` — the spot that a path of a mount names.
* `Sink.Diverted` — bytes that a link leads elsewhere.

Main statements: `Sink.kept_commit_disk`, `Sink.kept_commit_table`, `Sink.Diverted.changes`.
-/

namespace MountSpace

open MountSpace.Path

/-- Where something is kept. -/
inductive Spot
  /-- A place around a directory of the host. -/
  | place (host : String) (place : Place)
  /-- A key of a table. -/
  | row (table : TableName) (key : String)
  deriving DecidableEq, Repr

/-- What is kept at a spot. -/
inductive Keeping
  /-- An entry of the host, if there is one; the times of a directory are left out. -/
  | entry (entry : Option HostEntry)
  /-- The rows of a table. -/
  | rows (rows : List Row)
  deriving DecidableEq, Repr

/-- What is kept at a spot. -/
def Site.kept (site : Site) : Spot → Keeping
  | .place host place => .entry ((site.disk host).tree.kept? place)
  | .row T key => .rows ((site.table T).rowsAt key)

/-- The spot that a path of a mount names, if the path can be read. -/
def Mount.spot? (m : Mount) (path : String) : Option Spot :=
  match Path.read path, m.backend.storage with
  | .ok p, .disk host => some (.place host (Disk.home :: p.segments))
  | .ok p, .table _ => m.table?.map (.row · p.localText)
  | .error _, _ => none

namespace Mount

variable {m : Mount} {host path : String}

theorem spot?_disk {p : Path} (hread : Path.read path = .ok p)
    (hs : m.backend.storage = .disk host) :
    m.spot? path = some (.place host (Disk.home :: p.segments)) := by
  simp only [spot?, hread, hs]

theorem spot?_table {T : TableName} {key : String} (hkey : Table.key path = .ok key)
    (hT : m.table? = some T) : m.spot? path = some (.row T key) := by
  obtain ⟨p, hread, rfl⟩ := map_eq_ok.mp hkey
  obtain ⟨name, hs⟩ := storage_of_table? hT
  simp only [spot?, hread, hs, hT, Option.map_some]

end Mount

namespace Site

variable {site after : Site}

/-- Sites with the same disks and tables keep the same everywhere. -/
theorem kept_congr (hd : ∀ host, after.disk host = site.disk host)
    (ht : ∀ T, after.table T = site.table T) (spot : Spot) : after.kept spot = site.kept spot := by
  cases spot with
  | place host place => rw [kept, kept, hd]
  | row T key => rw [kept, kept, ht]

/-- What is kept changes only where a disk has changed. -/
theorem kept_of_disk {host : String} {d : Disk} {spot : Spot}
    (hd : ∀ other, after.disk other = if other = host then d else site.disk other)
    (ht : ∀ T, after.table T = site.table T)
    (hplace : ∀ place, spot = .place host place →
      d.tree.kept? place = (site.disk host).tree.kept? place) :
    after.kept spot = site.kept spot := by
  cases spot with
  | row T key => rw [kept, kept, ht]
  | place other place =>
    rw [kept, kept, hd]
    split
    · rename_i heq
      subst heq
      rw [hplace place rfl]
    · rfl

/-- What is kept changes only where a table has changed. -/
theorem kept_of_table {T : TableName} {spot : Spot}
    (hd : ∀ host, after.disk host = site.disk host)
    (ht : ∀ other, other ≠ T → after.table other = site.table other)
    (hrow : ∀ key, spot = .row T key → (after.table T).rowsAt key = (site.table T).rowsAt key) :
    after.kept spot = site.kept spot := by
  cases spot with
  | place host place => rw [kept, kept, hd]
  | row other key =>
    rw [kept, kept]
    by_cases hsame : other = T
    · subst hsame
      rw [hrow key rfl]
    · rw [ht other hsame]

end Site

/-- A change of the rows under one key is made as a whole, or not at all. -/
theorem Mount.kept_changeTable {m : Mount} {site after : Site} {name path : String}
    {work : Connection → Work Unit} {f : Instant → Table → Except Error Table}
    {res : Except Error Unit} (hs : m.backend.storage = .table name)
    (hwork : work m.connection = m.connection.changeTable name f)
    (hf : ∀ now t t', f now t = .ok t' → ∃ key, Table.key path = .ok key ∧
      ∀ other, other ≠ key → t'.rowsAt other = t.rowsAt other)
    (h : (m.within work).eval site = (res, after)) :
    (∀ e, res = .error e → ∀ spot, after.kept spot = site.kept spot) ∧
      ∀ spot, m.spot? path ≠ some spot → after.kept spot = site.kept spot := by
  obtain ⟨hd, ⟨-, ht⟩ | ⟨T, hT, rfl, hop, hother⟩⟩ := within_changeTable hs hwork h
  · exact ⟨fun _ _ => Site.kept_congr hd ht, fun spot _ => Site.kept_congr hd ht spot⟩
  refine ⟨fun e he => absurd he (by simp), fun spot hne =>
    Site.kept_of_table hd hother fun key hkept => ?_⟩
  obtain ⟨found, hkey, hrows⟩ := hf _ _ _ hop
  refine hrows key ?_
  rintro rfl
  exact hne (hkept ▸ spot?_table hkey hT)

/-! ## Handing over bytes -/

namespace Sink

variable {sink : Sink} {site after : Site} {names : List String} {data : Bytes}
  {res : Except Error Unit}

/-- The host is led elsewhere by a link when the bytes are handed over. -/
def Diverted (sink : Sink) (site : Site) (host : String) (data : Bytes) : Prop :=
  match sink.mode with
  | .replace => (site.disk host).DivertsWrite site.now sink.path data
  | .extend => (site.disk host).DivertsAppend sink.path data

/-- Bytes for a disk go to the place that the path spells, unless the host is led elsewhere. -/
theorem kept_commit_disk {host : String} (hs : sink.mount.backend.storage = .disk host)
    (hn : ∀ n ∈ names, Ordinary n) (hpath : sink.path = rootText names)
    (hno : ¬sink.Diverted site host data) (h : (sink.commit data).eval site = (res, after)) :
    (∀ e, res = .error e → ∀ spot, after.kept spot = site.kept spot) ∧
      ∀ spot, sink.mount.spot? sink.path ≠ some spot → after.kept spot = site.kept spot := by
  have hother : ∀ {spot place}, sink.mount.spot? sink.path ≠ some spot →
      spot = .place host place → ∀ p, Path.read sink.path = .ok p →
      place ≠ Disk.home :: p.segments := by
    rintro spot place hne rfl p hread rfl
    exact hne (Mount.spot?_disk hread hs)
  unfold commit at h
  unfold Diverted at hno
  cases hmode : sink.mode with
  | replace =>
    rw [hmode] at h hno
    have hwork := sink.mount.connection.write_onDisk hs sink.path data true
    obtain ⟨hres, hd, ht⟩ := Mount.within_onDisk hwork h
    rcases hwrite : (site.disk host).write site.now sink.path data true with ⟨done, d'⟩
    rw [hwrite] at hres hd
    obtain ⟨hfail, honly⟩ := Disk.kept_write hn (hpath ▸ hno) (hpath ▸ hwrite)
    refine ⟨fun e he spot => Site.kept_of_disk hd ht fun place _ => hfail e (hres.trans he) place,
      fun spot hne => Site.kept_of_disk hd ht fun place hplace => honly place ?_⟩
    exact hpath ▸ hother hne hplace
  | extend =>
    rw [hmode] at h hno
    have hwork := sink.mount.connection.append_onDisk hs sink.path data
    obtain ⟨ht, ⟨-, hd⟩ | ⟨d', happ, hres, hd⟩⟩ := Mount.within_changeDisk hwork h
    · exact ⟨fun _ _ => Site.kept_congr hd ht, fun spot _ => Site.kept_congr hd ht spot⟩
    subst hres
    refine ⟨fun e he => absurd he (by simp),
      fun spot hne => Site.kept_of_disk hd ht fun place hplace => ?_⟩
    exact Disk.kept_append hn (hpath ▸ hno) (hpath ▸ happ) place (hpath ▸ hother hne hplace)

/-- Bytes that the host is led to put elsewhere change what is kept there. -/
theorem Diverted.changes {host : String} (h : sink.Diverted site host data)
    (hs : sink.mount.backend.storage = .disk host) (hn : ∀ n ∈ names, Ordinary n)
    (hpath : sink.path = rootText names) :
    ∃ place, sink.mount.spot? sink.path ≠ some (.place host place) ∧
      ((sink.commit data).eval site).2.kept (.place host place) ≠
        site.kept (.place host place) := by
  have helsewhere : ∀ {p place}, Path.read sink.path = .ok p → place ≠ Disk.home :: p.segments →
      sink.mount.spot? sink.path ≠ some (.place host place) := by
    intro p place hread hne heq
    rw [Mount.spot?_disk hread hs] at heq
    exact hne (Spot.place.inj (Option.some.inj heq)).2.symm
  rcases hcommit : (sink.commit data).eval site with ⟨res, after⟩
  unfold commit at hcommit
  unfold Diverted at h
  cases hmode : sink.mode with
  | replace =>
    rw [hmode] at hcommit h
    obtain ⟨way, -, -, -, hway, -⟩ := id h
    obtain ⟨p, hread, -, -⟩ := Disk.way_eq_ok.mp hway
    have hwork := sink.mount.connection.write_onDisk hs sink.path data true
    obtain ⟨-, hd, -⟩ := Mount.within_onDisk hwork hcommit
    obtain ⟨place, hne, hchanged⟩ := Disk.DivertsWrite.changes hn (hpath ▸ h) (hpath ▸ hread)
    refine ⟨place, helsewhere hread hne, fun hsame => hchanged ?_⟩
    simp only [Site.kept, hd, if_true] at hsame
    exact hpath ▸ Keeping.entry.inj hsame
  | extend =>
    rw [hmode] at hcommit h
    obtain ⟨-, way, -, -, hway, -⟩ := id h
    obtain ⟨p, hread, -, -⟩ := Disk.way_eq_ok.mp hway
    have hwork := sink.mount.connection.append_onDisk hs sink.path data
    obtain ⟨-, hd, -⟩ := Mount.within_onDisk hwork hcommit
    obtain ⟨d', place, happ, hne, hchanged⟩ := h.changes site.now hread
    refine ⟨place, helsewhere hread hne, fun hsame => hchanged ?_⟩
    simp only [Site.kept, hd, if_true, happ] at hsame
    exact Keeping.entry.inj hsame

/-- Bytes for a table go to the row under the key of the path. -/
theorem kept_commit_table {name : String} (hs : sink.mount.backend.storage = .table name)
    (h : (sink.commit data).eval site = (res, after)) :
    (∀ e, res = .error e → ∀ spot, after.kept spot = site.kept spot) ∧
      ∀ spot, sink.mount.spot? sink.path ≠ some spot → after.kept spot = site.kept spot := by
  unfold commit at h
  cases hmode : sink.mode with
  | replace =>
    rw [hmode] at h
    have hwork := sink.mount.connection.write_onTable hs sink.path data true
    exact Mount.kept_changeTable hs hwork (fun _ _ _ hop => Table.rowsAt_write hop) h
  | extend =>
    rw [hmode] at h
    have hwork := sink.mount.connection.append_onTable hs sink.path data
    exact Mount.kept_changeTable hs hwork (fun _ _ _ hop => Table.rowsAt_append hop) h

end Sink

end MountSpace
