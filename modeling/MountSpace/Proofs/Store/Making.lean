import MountSpace.Proofs.Store.Renewal
import MountSpace.Proofs.Store.Tree

/-!
# New entries

A store that makes an entry puts it where nothing stood and keeps everything else, the times of
directories of the host aside.  On a disk, directories lead down to the place of what was made, and
each of them is reported; a directory that was made in a table is reported as well.

## Main definitions

* `HostTree.Gains`, `Table.Gains` — stores with something new in one place.

Main statements: `Disk.Homed.gains_of_create`, `Disk.Homed.renews_of_write`,
`Disk.Homed.directory_of_open`, `Table.gains_of_insert`, `Table.directory_of_makeDirectory`.
-/

namespace MountSpace

open MountSpace.Path

/-! ## Trees -/

namespace HostTree

variable {t t' : HostTree} {place : Place} {names : List String} {node : Node} {now : Instant}
variable {content : Bytes}

/-- Something stands at the place in `t'` where nothing stands in `t`, and everything else is
kept. -/
structure Gains (t t' : HostTree) (place : Place) : Prop where
  free : t.kept? place = none
  made : t'.kept? place ≠ none
  kept : ∀ other, other ≠ place → t'.kept? other = t.kept? other
  still : t.Still t' place

theorem kept?_eq_none_iff : t.kept? place = none ↔ t.find? place = none := by
  rw [kept?, Option.map_eq_none_iff]

theorem gains_of_create (h : t.create now names node = .ok t') :
    ∃ place, t.vacancy names = .ok place ∧ t.Gains t' place := by
  obtain ⟨place, hv, rfl⟩ := create_eq_ok h
  obtain ⟨dir, name, hh, -, -, hfree, rfl⟩ := vacancy_eq_ok.mp hv
  have hdir : (t.put (dir ++ [name]) (node.fresh now)).node? dir = some .directory := by
    rw [node?_put_of_ne (by simp), node?_of_holder hh]
  rw [List.dropLast_concat]
  refine ⟨_, hv, kept?_eq_none_iff.mpr hfree, ?_, fun other hne => ?_,
    still_of_find? fun other hne hdir => ?_⟩
  · rw [kept?_touch hdir, ne_eq, kept?_eq_none_iff, find?_put_self]
    simp
  · rw [kept?_touch hdir, kept?_put_of_ne hne]
  · rw [find?_touch_of_ne hdir, find?_put_of_ne _ hne]

/-- A file that is written where nothing stands is new. -/
theorem Renews.gains (h : t.Renews t' place content) (hfree : t.find? place = none) :
    t.Gains t' place where
  free := kept?_eq_none_iff.mpr hfree
  made := by
    obtain ⟨entry, hfind, -⟩ := node?_eq_some.mp h.node
    rw [ne_eq, kept?_eq_none_iff, hfind]
    simp
  kept := h.kept
  still := h.still

theorem Renews.stay (h : t.Renews t' place content) : DirectoriesStay t t' where
  limits := h.limits
  node other hdir := by
    rw [h.node?_of_ne ?_, hdir]
    rintro rfl
    obtain ⟨former, hfile⟩ := h.old _ hdir
    cases hfile

end HostTree

/-! ## Disks -/

namespace Disk

variable {d d' : Disk} {names front way : List String} {node : Node} {now : Instant} {place : Place}
variable {data : Bytes} {overwrite : Bool} {p : Path}

/-- The host finds a path with plain names at the place that it spells, behind directories. -/
theorem Homed.open_of_place? (h : d.Homed) (hp : Table.Plain names)
    (hplace : d.place? (rootText names) = some place) :
    place = home :: names ∧ d.tree.Open home names := by
  obtain ⟨way, hw, hfound⟩ := exists_of_place? hplace
  obtain ⟨rfl, hs⟩ := h.way_eq hp.ordinary hw
  rw [hp.settle_eq] at hfound hs
  exact ⟨HostTree.Base.place_eq h hs hp.ordinary hfound,
    HostTree.Base.open_of_placeOf h hs hp.ordinary hfound⟩

/-- **An entry that is made** is the only one that is new. -/
theorem Homed.gains_of_create (h : d.Homed) (hp : Table.Plain names)
    (hw : d.way (rootText names) = .ok way) (hc : d.tree.create now way node = .ok d'.tree) :
    d.tree.Gains d'.tree (home :: names) ∧
      HostTree.Adds d.tree d'.tree home names node := by
  obtain ⟨rfl, hs⟩ := h.way_eq hp.ordinary hw
  rw [hp.settle_eq] at hc hs
  have hadds := HostTree.Base.adds_of_create h hs hp.ordinary hc
  obtain ⟨place, hv, hgains⟩ := HostTree.gains_of_create hc
  obtain ⟨dir, name, hh, -, -, -, rfl⟩ := HostTree.vacancy_eq_ok.mp hv
  rw [HostTree.Base.append_of_holder h hs hp.ordinary hh] at hgains
  exact ⟨hgains, hadds⟩

theorem read_of_write {path : String} (h : d.write now path data overwrite = (.ok (), d')) :
    ∃ p, Path.read path = .ok p := by
  unfold Disk.write at h
  cases hw : d.way path with
  | error e =>
    rw [hw] at h
    cases h
  | ok way =>
    obtain ⟨p, hread, -, -⟩ := way_eq_ok.mp hw
    exact ⟨p, hread⟩

/-- **A file that is written where nothing stands** is the only entry that is new. -/
theorem Homed.renews_of_write (h : d.Homed) (hp : Table.Plain names)
    (hfree : d.tree.find? (home :: names) = none)
    (hw : d.write now (rootText names) data overwrite = (.ok (), d')) :
    d.place? (rootText names) = some (home :: names) ∧
      d.tree.Renews d'.tree (home :: names) data ∧ d'.tree.Open home names := by
  obtain ⟨place, hplace, hrenews⟩ := renews_of_clear_write (fun other node hother hnode => by
    obtain ⟨rfl, -⟩ := h.open_of_place? hp hother
    obtain ⟨entry, hfind, -⟩ := HostTree.node?_eq_some.mp hnode
    rw [hfree] at hfind
    cases hfind) hw
  obtain ⟨rfl, hopen⟩ := h.open_of_place? hp hplace
  exact ⟨hplace, hrenews, hopen.of_stay hrenews.stay⟩

/-- A directory at the end of an open way is reported, if the path of something in it can be
read. -/
theorem Homed.directory_of_node (h : d.Homed) (hp : Table.Plain names)
    (hread : Path.read (rootText names) = .ok p) (hf : front <+: names)
    (hopen : d.tree.Open home front) (hnode : d.tree.node? (home :: front) = some .directory) :
    ∃ st, d.status (rootText front) = .ok (some st) ∧ st.kind = .directory := by
  have hfront := hp.of_prefix hf
  have hread' : Path.read (rootText front) = .ok ⟨{}, front, true⟩ := by
    obtain ⟨rest, rfl⟩ := hf
    have hshort := read_of_prefix hp.ordinary hfront.ordinary hread (rootText_prefix_append _ _)
    rw [hfront.settle_eq, hp.settle_eq] at hshort
    exact hshort fun n hn => ⟨n, by simp [hn], List.prefix_rfl⟩
  obtain ⟨entry, hfind, hdir⟩ := HostTree.node?_eq_some.mp hnode
  have hstatus := status_of_open h hread' hfront.ordinary hopen
  dsimp only at hstatus
  rw [hstatus, hfind]
  exact ⟨_, congrArg (some <$> ·) (report_directory hdir hread'), rfl⟩

/-- **The directories on an open way are reported.** -/
theorem Homed.directory_of_open (h : d.Homed) (hp : Table.Plain names)
    (hread : Path.read (rootText names) = .ok p) (hopen : d.tree.Open home names)
    (hf : OnTheWay front names) :
    ∃ st, d.status (rootText front) = .ok (some st) ∧ st.kind = .directory :=
  h.directory_of_node hp hread hf.1 (hopen.of_prefix hf.1)
    (hopen.directories front hf.prefix_dropLast)

end Disk

/-! ## Tables -/

namespace Table

variable {t t' : Table} {key path : String} {names : List String} {now : Instant}
variable {kind : Kind} {content : Option Bytes} {target : Option String} {found : Option Status}

/-- There is a row under the key in `t'` where none is in `t`, and all other rows are kept. -/
structure Gains (t t' : Table) (key : String) : Prop where
  free : t.rowsAt key = []
  made : t'.rowsAt key ≠ []
  kept : ∀ other, other ≠ key → t'.rowsAt other = t.rowsAt other

theorem rowsAt_eq_nil_iff : t.rowsAt key = [] ↔ ∀ row ∈ t.rows, row.path ≠ key := by
  rw [rowsAt, List.filter_eq_nil_iff]
  simp only [beq_iff_eq]

/-- **A row that is inserted** is the only one that is new. -/
theorem gains_of_insert (h : t.insert now key kind content target = .ok t') :
    t.Gains t' key where
  free := rowsAt_eq_nil_iff.mpr (find_eq_none (find_of_insert h))
  made hnil := by
    obtain ⟨row, hrows, hpath, -⟩ := rows_of_insert h
    exact rowsAt_eq_nil_iff.mp hnil row (by simp [hrows]) hpath
  kept _ hne := rowsAt_insert h hne

/-- A directory that was made is reported. -/
theorem directory_of_makeDirectory (hp : Plain names) (hne : names ≠ [])
    (h : t.makeDirectory now (rootText names) = .ok t') :
    ∃ st, t'.status (rootText names) = .ok (some st) ∧ st.kind = .directory := by
  obtain ⟨key, -, -, hkey, -, -, hinsert⟩ := insert_of_makeDirectory h
  obtain ⟨p, hread, -⟩ := map_eq_ok.mp hkey
  have hpath := eq_of_read_rootText hp.ordinary hread
  rw [hp.settle_eq] at hpath
  obtain rfl : key = rootText names := by rw [key_rootText hp.ordinary hkey, hp.settle_eq]
  obtain ⟨row, hfind, hrow, hk, htarget⟩ := find_of_insert_self hinsert
  rw [status_of_find hkey (rootText_ne hp.ordinary hne) hfind]
  have hstatus := Row.status_eq_ok.mpr
    ⟨p, none, hrow ▸ hread, Row.destination_of_none htarget, rfl⟩
  exact ⟨_, congrArg (some <$> ·) hstatus, hk⟩

end Table

end MountSpace
