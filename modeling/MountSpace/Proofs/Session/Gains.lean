import MountSpace.Proofs.Session.LinkTargets
import MountSpace.Proofs.Session.ReadBack
import MountSpace.Proofs.Session.TreeRequests

/-!
# What mounts gain

A mount in which an entry is made keeps something at one spot where it kept nothing, and all other
spots keep what they kept.  When the directories above a path are made, the spots that gain
something are those of directories that were missing.

## Main definitions

* `Site.Vacant` — nothing is kept at a spot.
* `Site.Still` — on disks nothing is different but some entries and their directories.
* `Site.Gains` — some spots are no longer vacant, and nothing else has changed.
* `Mount.Gains` — a mount with one new entry.

Main statements: `Mount.gains_of_makeDirectory`, `Mount.gains_of_makeLink`, `Mount.gains_of_write`,
`Session.Ending.gains_of_prepareParent`.
-/

namespace MountSpace

open MountSpace.Path

/-- Nothing is kept. -/
def Keeping.Vacant : Keeping → Prop
  | .entry e => e = none
  | .rows rs => rs = []

/-! ## Sites that gain entries -/

namespace Site

variable {site mid after : Site} {spots more : List Spot} {spot : Spot}

/-- Nothing is kept at the spot. -/
def Vacant (site : Site) (spot : Spot) : Prop := (site.kept spot).Vacant

theorem vacant_place_iff {host : String} {place : Place} :
    site.Vacant (.place host place) ↔ (site.disk host).tree.kept? place = none :=
  Iff.rfl

theorem vacant_row_iff {T : TableName} {key : String} :
    site.Vacant (.row T key) ↔ (site.table T).rowsAt key = [] :=
  Iff.rfl

theorem vacant_congr (h : after.kept spot = site.kept spot) :
    after.Vacant spot ↔ site.Vacant spot := by
  rw [Vacant, Vacant, h]

/-- On the disks nothing is different, times included, but the entries at the spots and the
directories that they stand in. -/
def Still (site after : Site) (spots : List Spot) : Prop :=
  ∀ host place, .place host place ∉ spots → (∀ name, .place host (place ++ [name]) ∉ spots) →
    (after.disk host).tree.find? place = (site.disk host).tree.find? place

theorem still_of_disks (hd : ∀ host, after.disk host = site.disk host) :
    site.Still after spots :=
  fun host _ _ _ => by rw [hd]

theorem still_of_disk {host : String} {d : Disk} {place : Place}
    (hd : ∀ other, after.disk other = if other = host then d else site.disk other)
    (h : (site.disk host).tree.Still d.tree place) : site.Still after [.place host place] := by
  intro other at_ hne hdir
  rw [hd]
  split
  · rename_i heq
    subst heq
    exact h at_ (fun heq => hne (by simp [heq])) fun name heq => hdir name (by simp [heq])
  · rfl

theorem Still.trans (h : site.Still mid spots) (h' : mid.Still after more) :
    site.Still after (spots ++ more) := by
  intro host place hne hdir
  simp only [List.mem_append, not_or] at hne hdir
  exact (h' host place hne.2 fun name => (hdir name).2).trans
    (h host place hne.1 fun name => (hdir name).1)

/-- Something is kept at the spots, where nothing was, and everything else is kept as it was. -/
structure Gains (site after : Site) (spots : List Spot) : Prop where
  vacant : ∀ spot ∈ spots, site.Vacant spot
  filled : ∀ spot ∈ spots, ¬after.Vacant spot
  kept : ∀ spot, spot ∉ spots → after.kept spot = site.kept spot
  still : site.Still after spots

namespace Gains

theorem refl (site : Site) : site.Gains site [] where
  vacant := List.forall_mem_nil _
  filled := List.forall_mem_nil _
  kept _ _ := rfl
  still _ _ _ _ := rfl

/-- Reports are nothing that is gained. -/
theorem of_told {events : List Event} (h : (site.told events).Gains after spots) :
    site.Gains after spots :=
  ⟨h.vacant, h.filled, h.kept, h.still⟩

/-- What is gained is not lost again. -/
theorem trans (h : site.Gains mid spots) (h' : mid.Gains after more) :
    site.Gains after (spots ++ more) where
  vacant spot hspot := by
    rcases List.mem_append.mp hspot with hspot | hspot
    · exact h.vacant spot hspot
    · have hvacant := h'.vacant spot hspot
      exact (vacant_congr (h.kept spot fun hmem => h.filled spot hmem hvacant)).mp hvacant
  filled spot hspot := by
    rcases List.mem_append.mp hspot with hspot | hspot
    · have hfilled := h.filled spot hspot
      rwa [vacant_congr (h'.kept spot fun hmem => hfilled (h'.vacant spot hmem))]
    · exact h'.filled spot hspot
  kept spot hspot := by
    rw [List.mem_append, not_or] at hspot
    exact (h'.kept spot hspot.2).trans (h.kept spot hspot.1)
  still := h.still.trans h'.still

/-- What was kept anywhere is still kept. -/
theorem kept_of_filled (h : site.Gains after spots) (hspot : ¬site.Vacant spot) :
    after.kept spot = site.kept spot :=
  h.kept spot fun hmem => hspot (h.vacant spot hmem)

end Gains

end Site

/-! ## Mounts with one new entry -/

/-- The mount holds something new below the names, and nothing else has changed.  On a disk
directories lead down to it. -/
structure Mount.Gains (m : Mount) (site after : Site) (names : List String) : Prop where
  ways : ∀ s : Session, (s.atlas site).KeepsWays (s.atlas after)
  gains : ∃ spot, m.spot? (rootText names) = some spot ∧ site.Gains after [spot]
  isOpen : ∀ host, m.backend.storage = .disk host → (after.disk host).tree.Open Disk.home names

namespace Mount

variable {m : Mount} {site after : Site} {names front : List String} {host text : String}
variable {T : TableName} {spot : Spot} {data : Bytes} {overwrite : Bool} {node : Node}
variable {st : Status} {work : Connection → Work Unit} {p : Path}

/-! ### Spots of names -/

theorem spot?_plain_disk (hs : m.backend.storage = .disk host) (hp : Table.Plain names)
    (hread : Path.read (rootText names) = .ok p) :
    m.spot? (rootText names) = some (.place host (Disk.home :: names)) := by
  rw [spot?_disk hread hs, eq_of_read_rootText hp.ordinary hread, hp.settle_eq]

theorem spot?_plain_table (hT : m.table? = some T) (hp : Table.Plain names) {key : String}
    (hkey : Table.key (rootText names) = .ok key) :
    m.spot? (rootText names) = some (.row T (rootText names)) := by
  rw [spot?_table hkey hT, Table.key_rootText hp.ordinary hkey, hp.settle_eq]

theorem exists_read_of_spot? (h : m.spot? text = some spot) : ∃ p, Path.read text = .ok p := by
  cases hread : Path.read text with
  | error e =>
    simp only [spot?, hread] at h
    cases h
  | ok p => exact ⟨p, rfl⟩

/-- The spot of plain names has the names in it. -/
theorem eq_of_spot? (hp : Table.Plain names) (h : m.spot? (rootText names) = some spot) :
    (∃ host, m.backend.storage = .disk host ∧ spot = .place host (Disk.home :: names)) ∨
      ∃ T, m.table? = some T ∧ spot = .row T (rootText names) := by
  obtain ⟨p, hread⟩ := exists_read_of_spot? h
  cases hs : m.backend.storage with
  | disk host =>
    rw [spot?_plain_disk hs hp hread] at h
    exact .inl ⟨host, rfl, (Option.some.inj h).symm⟩
  | table name =>
    cases hT : m.table? with
    | none =>
      simp only [spot?, hread, hs, hT] at h
      cases h
    | some T =>
      have hkey : Table.key (rootText names) = .ok p.localText := by
        rw [Table.key, hread]
        rfl
      rw [spot?_plain_table hT hp hkey] at h
      exact .inr ⟨T, rfl, (Option.some.inj h).symm⟩

theorem spot?_inj (hp : Table.Plain names) (hf : Table.Plain front)
    (h : m.spot? (rootText names) = some spot) (h' : m.spot? (rootText front) = some spot) :
    names = front := by
  rcases eq_of_spot? hp h with ⟨host, hs, rfl⟩ | ⟨T, hT, rfl⟩
  · rcases eq_of_spot? hf h' with ⟨host', -, heq⟩ | ⟨T, -, heq⟩
    · exact (List.cons.inj (Spot.place.inj heq).2).2
    · cases heq
  · rcases eq_of_spot? hf h' with ⟨host', -, heq⟩ | ⟨T', -, heq⟩
    · cases heq
    · exact rootText_inj hp.ordinary hf.ordinary (Spot.row.inj heq).2

/-- Behind directories of the host, a path with plain names is found at its spot. -/
theorem spot?_of_spotIn (hroot : m.Rooted site) (hp : Table.Plain names)
    (h : m.spotIn site (rootText names) = some spot) : m.spot? (rootText names) = some spot := by
  cases hs : m.backend.storage with
  | table name => simpa only [spotIn, hs] using h
  | disk host =>
    simp only [spotIn, hs, Option.map_eq_some_iff] at h
    obtain ⟨place, hplace, rfl⟩ := h
    obtain ⟨way, hway, -⟩ := Disk.exists_of_place? hplace
    obtain ⟨p, hread, -, -⟩ := Disk.way_eq_ok.mp hway
    obtain ⟨rfl, -⟩ := (hroot.homed hs).open_of_place? hp hplace
    exact spot?_plain_disk hs hp hread

/-- Below the root, something is kept where something is reported. -/
theorem not_vacant_of_status (hroot : m.Rooted site) (hp : Table.Plain names) (hne : names ≠ [])
    (hst : m.statusIn site (rootText names) = .ok (some st))
    (hspot : m.spot? (rootText names) = some spot) : ¬site.Vacant spot := by
  rcases eq_of_spot? hp hspot with ⟨host, hs, rfl⟩ | ⟨T, hT, rfl⟩
  · rw [statusIn_disk hs] at hst
    obtain ⟨entry, hfind⟩ := (hroot.homed hs).find?_of_status hp.ordinary hst
    rw [hp.settle_eq] at hfind
    intro hvacant
    rw [HostTree.kept?_eq_none_iff.mp (Site.vacant_place_iff.mp hvacant)] at hfind
    cases hfind
  · rw [statusIn_table hT] at hst
    obtain ⟨row, hrow, hpath, -⟩ := Table.row_of_status hp hne hst
    exact fun hvacant => Table.rowsAt_eq_nil_iff.mp hvacant row hrow hpath

/-! ### Making one entry -/

theorem within_eq_ok_iff {α : Type} {work : Connection → Work α} {a : α} :
    (m.within work).eval site = (.ok a, after) ↔
      (work m.connection).eval site = (.ok a, after) := by
  rw [eval_within]
  rcases (work m.connection).eval site with ⟨e | b, t⟩ <;> simp

theorem gains_of_disk {d : Disk} (hs : m.backend.storage = .disk host) (hp : Table.Plain names)
    (hread : Path.read (rootText names) = .ok p)
    (hways : ∀ s : Session, (s.atlas site).KeepsWays (s.atlas after))
    (hd : ∀ other, after.disk other = if other = host then d else site.disk other)
    (ht : ∀ T, after.table T = site.table T)
    (hg : (site.disk host).tree.Gains d.tree (Disk.home :: names))
    (hopen : d.tree.Open Disk.home names) : m.Gains site after names := by
  have hafter : after.disk host = d := by rw [hd, if_pos rfl]
  refine ⟨hways, ⟨_, spot?_plain_disk hs hp hread, ?_, ?_, fun spot hspot => ?_,
    Site.still_of_disk hd hg.still⟩, ?_⟩
  · simpa [Site.vacant_place_iff] using hg.free
  · simpa [Site.vacant_place_iff, hafter] using hg.made
  · refine Site.kept_of_disk hd ht fun place hplace => hg.kept place ?_
    rintro rfl
    exact hspot (by simp [hplace])
  · rintro other hother
    obtain rfl : host = other := by
      rw [hs] at hother
      exact Storage.disk.inj hother
    rwa [hafter]

theorem gains_of_table {key : String} (hT : m.table? = some T) (hp : Table.Plain names)
    (hkey : Table.key (rootText names) = .ok key)
    (hways : ∀ s : Session, (s.atlas site).KeepsWays (s.atlas after))
    (hd : ∀ host, after.disk host = site.disk host)
    (ho : ∀ other, other ≠ T → after.table other = site.table other)
    (hg : (site.table T).Gains (after.table T) key) : m.Gains site after names := by
  obtain rfl : key = rootText names := by
    rw [Table.key_rootText hp.ordinary hkey, hp.settle_eq]
  refine ⟨hways, ⟨_, spot?_plain_table hT hp hkey, ?_, ?_, fun spot hspot => ?_,
    Site.still_of_disks hd⟩, ?_⟩
  · simpa [Site.vacant_row_iff] using hg.free
  · simpa [Site.vacant_row_iff] using hg.made
  · refine Site.kept_of_table hd ho fun key hrow => hg.kept key ?_
    rintro rfl
    exact hspot (by simp [hrow])
  · intro host hs
    obtain ⟨name, hs'⟩ := storage_of_table? hT
    rw [hs] at hs'
    cases hs'

section Rooted

variable (hroot : m.Rooted site) (hp : Table.Plain names)

include hroot hp

/-- An entry that is made on a disk is new. -/
theorem gains_of_create {f : Instant → Disk → Except Error Disk}
    (hs : m.backend.storage = .disk host)
    (hwork : work m.connection = Connection.changeDisk host f)
    (hf : ∀ d, f site.now (site.disk host) = .ok d → ∃ way,
      (site.disk host).way (rootText names) = .ok way ∧
        (site.disk host).tree.create site.now way node = .ok d.tree)
    (h : (m.within work).eval site = (.ok (), after)) :
    m.Gains site after names ∧
      (after.disk host).tree.node? (Disk.home :: names) = some node := by
  obtain ⟨ht, ⟨⟨e, he⟩, -⟩ | ⟨d, hop, -, hd⟩⟩ := within_changeDisk hwork h
  · cases he
  obtain ⟨way, hway, hcreate⟩ := hf d hop
  obtain ⟨p, hread, -, -⟩ := Disk.way_eq_ok.mp hway
  have hhome := hroot.homed hs
  obtain ⟨hg, hadds⟩ := hhome.gains_of_create hp hway hcreate
  refine ⟨gains_of_disk hs hp hread (fun s => ?_) hd ht hg hadds.isOpen, ?_⟩
  · exact ((grows_of_disk hhome hadds.grows hd ht).extends s).keepsWays
  · rw [hd, if_pos rfl]
    exact hadds.node_eq

omit hroot in
/-- A row that is inserted in a table is new. -/
theorem gains_of_insert {name : String} {f : Instant → Table → Except Error Table}
    (hs : m.backend.storage = .table name)
    (hwork : work m.connection = m.connection.changeTable name f)
    (hf : ∀ T t, m.table? = some T → f site.now (site.table T) = .ok t →
      ∃ key kind content target, Table.key (rootText names) = .ok key ∧
        (site.table T).insert site.now key kind content target = .ok t)
    (h : (m.within work).eval site = (.ok (), after)) : m.Gains site after names := by
  obtain ⟨hd, ⟨⟨e, he⟩, -⟩ | ⟨T, hT, -, hop, ho⟩⟩ := within_changeTable hs hwork h
  · cases he
  obtain ⟨key, kind, content, target, hkey, hinsert⟩ := hf T _ hT hop
  have hgrows := grows_of_table hd (Table.grows_of_insert hinsert) ho
  exact gains_of_table hT hp hkey (fun s => (hgrows.extends s).keepsWays) hd ho
    (Table.gains_of_insert hinsert)

/-- **A directory that is made** is new, and is reported. -/
theorem gains_of_makeDirectory (hne : names ≠ [])
    (h : (m.within fun c => c.makeDirectory (rootText names)).eval site = (.ok (), after)) :
    m.Gains site after names ∧ ∀ s : Session, (s.atlas after).IsDirectory m names := by
  obtain ⟨root, hstatus, -⟩ := id hroot
  rcases m.storage_cases hstatus with ⟨host, hs⟩ | ⟨T, hT⟩
  · have hwork := m.connection.makeDirectory_onDisk hs (rootText names)
    obtain ⟨hg, hnode⟩ := gains_of_create hroot hp hs hwork
      (fun d hop => Disk.makeDirectory_eq_ok hop) h
    refine ⟨hg, fun s => ?_⟩
    have hgrows : site.Grows after := grows_of_makeDirectory hroot (within_eq_ok_iff.mp h)
    obtain ⟨-, ⟨⟨e, he⟩, -⟩ | ⟨d, hop, -, -⟩⟩ := within_changeDisk hwork h
    · cases he
    obtain ⟨way, hway, -⟩ := Disk.makeDirectory_eq_ok hop
    obtain ⟨p, hread, -, -⟩ := Disk.way_eq_ok.mp hway
    obtain ⟨st, hst, hk⟩ := ((hroot.of_grows hgrows).homed hs).directory_of_node hp hread
      List.prefix_rfl (hg.isOpen host hs) hnode
    exact ⟨st, (statusIn_disk hs after _).trans hst, hk⟩
  · obtain ⟨name, hs⟩ := storage_of_table? hT
    have hwork := m.connection.makeDirectory_onTable hs (rootText names)
    refine ⟨gains_of_insert hp hs hwork (fun T t _ hop => ?_) h, fun s => ?_⟩
    · obtain ⟨key, -, -, hkey, -, -, hinsert⟩ := Table.insert_of_makeDirectory hop
      exact ⟨key, _, _, _, hkey, hinsert⟩
    · obtain ⟨st, hst, hk⟩ := Table.directory_of_makeDirectory hp hne
        (makeDirectory_table hT (within_eq_ok_iff.mp h))
      exact ⟨st, (statusIn_table hT after _).trans hst, hk⟩

/-- **A link that is made** is new. -/
theorem gains_of_makeLink
    (h : (m.within fun c => c.makeLink (rootText names) text).eval site = (.ok (), after)) :
    m.Gains site after names := by
  obtain ⟨root, hstatus, -⟩ := id hroot
  rcases m.storage_cases hstatus with ⟨host, hs⟩ | ⟨T, hT⟩
  · have hwork := m.connection.makeLink_onDisk hs (rootText names) text
    exact (gains_of_create hroot hp hs hwork (fun d hop => Disk.makeLink_eq_ok hop) h).1
  · obtain ⟨name, hs⟩ := storage_of_table? hT
    have hwork := m.connection.makeLink_onTable hs (rootText names) text
    refine gains_of_insert hp hs hwork (fun T t _ hop => ?_) h
    obtain ⟨key, hkey, hinsert⟩ := Table.insert_of_makeLink hop
    exact ⟨key, _, _, _, hkey, hinsert⟩

/-- **A file that is written where nothing is kept** is new. -/
theorem gains_of_write
    (hfree : ∀ spot, m.spot? (rootText names) = some spot → site.Vacant spot)
    (h : (m.within fun c => c.write (rootText names) data overwrite).eval site =
      (.ok (), after)) : m.Gains site after names := by
  obtain ⟨root, hstatus, -⟩ := id hroot
  rcases m.storage_cases hstatus with ⟨host, hs⟩ | ⟨T, hT⟩
  · have hwork := m.connection.write_onDisk hs (rootText names) data overwrite
    obtain ⟨hres, hd, ht⟩ := within_onDisk hwork h
    have hhome := hroot.homed hs
    obtain ⟨d, hwrite⟩ : ∃ d, (site.disk host).write site.now (rootText names) data overwrite =
        (.ok (), d) := ⟨_, Prod.ext hres rfl⟩
    rw [hwrite] at hd
    obtain ⟨p, hread⟩ := Disk.read_of_write hwrite
    have hfind := HostTree.kept?_eq_none_iff.mp (hfree _ (spot?_plain_disk hs hp hread))
    obtain ⟨hplace, hrenews, hopen⟩ := hhome.renews_of_write hp hfind hwrite
    have hmount := renews_of_disk hs hd ht hplace hrenews
    exact gains_of_disk hs hp hread hmount.keepsWays hd ht (hrenews.gains hfind) hopen
  · obtain ⟨name, hs⟩ := storage_of_table? hT
    have hwork := m.connection.write_onTable hs (rootText names) data overwrite
    refine gains_of_insert hp hs hwork (fun T t hT hop => ?_) h
    obtain ⟨key, hkey, hinsert | ⟨row, hfind, -⟩⟩ := Table.write_cases hop
    · exact ⟨key, _, _, _, hkey, hinsert⟩
    · obtain ⟨hrow, hpath⟩ := Table.find_eq_some hfind
      rw [Table.key_rootText hp.ordinary hkey, hp.settle_eq] at hpath
      exact absurd hpath (Table.rowsAt_eq_nil_iff.mp (hfree _ (spot?_plain_table hT hp hkey)) row
        hrow)

/-- A file that is overwritten changes the times of its directory at most. -/
theorem still_of_write {found : Option Status} (hst : m.statusIn site (rootText names) = .ok found)
    (hk : ∀ st, found = some st → st.kind = .file)
    (h : (m.within fun c => c.write (rootText names) data overwrite).eval site = (.ok (), after))
    (hspot : m.spot? (rootText names) = some spot) : site.Still after [spot] := by
  rcases m.storage_cases hst with ⟨host, hs⟩ | ⟨T, hT⟩
  · have hwork := m.connection.write_onDisk hs (rootText names) data overwrite
    obtain ⟨hres, hd, -⟩ := within_onDisk hwork h
    rw [statusIn_disk hs] at hst
    obtain ⟨place, hplace, hrenews⟩ := Disk.renews_of_write hst hk (Prod.ext hres rfl)
    have hfound : m.spotIn site (rootText names) = some (.place host place) := by
      simp only [spotIn, hs, hplace, Option.map_some]
    obtain rfl := Option.some.inj (hspot.symm.trans (spot?_of_spotIn hroot hp hfound))
    exact Site.still_of_disk hd hrenews.still
  · obtain ⟨name, hs⟩ := storage_of_table? hT
    have hwork := m.connection.write_onTable hs (rootText names) data overwrite
    exact Site.still_of_disks (within_changeTable hs hwork h).1

end Rooted

end Mount

/-! ## Making the directories above a path -/

namespace Session

variable {s : Session} {site found mid : Site} {asked : Path} {follow createParent : Bool}
variable {r : Resolution}

/-- **The directories above a path** are made where nothing is kept. -/
theorem Ending.gains_of_prepareParent (h : s.Ending site follow r) (hroot : r.mount.Rooted found)
    (hp : Table.Plain r.path.segments)
    (hprep : (prepareParent r asked createParent).eval found = (.ok (), mid)) :
    ∃ spots, found.Gains mid spots ∧ ∀ spot ∈ spots, ∃ front,
      front <+: r.path.segments.dropLast ∧ front ≠ [] ∧
        r.mount.spot? (rootText front) = some spot := by
  have hnone : ∃ spots, found.Gains found spots ∧ ∀ spot ∈ spots, ∃ front,
      front <+: r.path.segments.dropLast ∧ front ≠ [] ∧
        r.mount.spot? (rootText front) = some spot :=
    ⟨[], .refl found, List.forall_mem_nil _⟩
  rcases prepareParent_cases hprep with ⟨rfl, -⟩ | ⟨-, -, hmake⟩
  · exact hnone
  rw [h.eval_makeParents, Mount.within_eq_ok_iff] at hmake
  have hdir : Table.Plain r.path.segments.dropLast := hp.of_prefix (List.dropLast_prefix _)
  refine (makeDirectories_induct (P := fun t => found.Grows t ∧ ∃ spots, found.Gains t spots ∧
    ∀ spot ∈ spots, ∃ front, front <+: r.path.segments.dropLast ∧ front ≠ [] ∧
      r.mount.spot? (rootText front) = some spot)
    ?_ (List.nil_append _) hdir.ordinary ⟨.refl found, hnone⟩ hmake).2
  intro t next made names hres hf hne hP hstep
  obtain rfl := hres.elim id id
  obtain ⟨hgrows, spots, hgains, hspots⟩ := hP
  have hmade : (r.mount.within fun c => c.makeDirectory (rootText names)).eval t = (.ok (), next) :=
    Mount.within_eq_ok_iff.mpr hstep
  obtain ⟨⟨-, ⟨spot, hspot, hnew⟩, -⟩, -⟩ :=
    Mount.gains_of_makeDirectory (hroot.of_grows hgrows) (hdir.of_prefix hf) hne hmade
  refine ⟨hgrows.trans (Mount.grows_of_makeDirectory (hroot.of_grows hgrows) hstep), _,
    hgains.trans hnew, fun other hother => ?_⟩
  rcases List.mem_append.mp hother with hother | hother
  · exact hspots other hother
  · obtain rfl := List.mem_singleton.mp hother
    exact ⟨_, hf, hne, hspot⟩

end Session

end MountSpace
