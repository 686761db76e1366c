import MountSpace.Proofs.Store.Carried
import MountSpace.Proofs.Store.Renewal
import MountSpace.Proofs.Store.Subtree

/-!
# What a directory is listed with

A store finds what is in a directory by looking for what it holds, and a single entry by looking
for its path.  In a coherent store both come to the same: a directory is listed with what is
reported of the names below it, and with each name once.

A way through the host may go over a home that has been replaced by a link; nothing is asked of it
here but that the host comes to a directory.

## Main definitions

* `Listed` — entries that are what is reported below a directory.
* `HostTree.Filed`, `Table.Filed` — stores whose entries are coherent.

Main statements: `Disk.listed`, `Table.listed`.
-/

namespace MountSpace

open MountSpace.Path

/-! ## Listed entries -/

/-- The entries are what is reported of the names below a directory, each name once. -/
structure Listed (status : String → Except Error (Option Status)) (dirs : List String)
    (entries : List Status) : Prop where
  plain : ∀ st ∈ entries, Ordinary st.path.name ∧ ¬EndsBlank st.path.name
  nodup : (entries.map fun st => st.path.name).Nodup
  reported : ∀ name st, Ordinary name → ¬EndsBlank name →
    (st ∈ entries ∧ st.path.name = name ↔ status (rootText (dirs ++ [name])) = .ok (some st))

section Items

variable {α : Type} {items : List α} {f : α → Except Error Status}
variable {found entries : List Status} {dirs : List String}
variable {status : String → Except Error (Option Status)}

/-- A store lists a directory by reporting the items in it one after the other. -/
theorem Listed.of_items (nameOf : α → String) (hmap : items.mapM f = .ok found)
    (hperm : entries.Perm found)
    (hname : ∀ i ∈ items, ∀ st, f i = .ok st → st.path.name = nameOf i)
    (hplain : ∀ i ∈ items, Ordinary (nameOf i) ∧ ¬EndsBlank (nameOf i))
    (hnodup : (items.map nameOf).Nodup)
    (hreport : ∀ name st, Ordinary name → ¬EndsBlank name →
      (status (rootText (dirs ++ [name])) = .ok (some st) ↔
        ∃ i ∈ items, nameOf i = name ∧ f i = .ok st)) :
    Listed status dirs entries := by
  have hmem : ∀ st, st ∈ entries ↔ ∃ i ∈ items, f i = .ok st := by
    intro st
    rw [hperm.mem_iff]
    refine ⟨exists_of_mem_mapM hmap, fun ⟨i, hi, hst⟩ => ?_⟩
    obtain ⟨other, hother, heq⟩ := forall_of_mapM hmap hi
    rwa [Except.ok.inj (hst.symm.trans heq)]
  have hnames : found.map (fun st => st.path.name) = items.map nameOf :=
    map_eq_of_mapM hmap hname
  refine ⟨fun st hst => ?_, ?_, fun name st ho hblank => ?_⟩
  · obtain ⟨i, hi, hst⟩ := (hmem st).mp hst
    rw [hname i hi st hst]
    exact hplain i hi
  · rw [(hperm.map _).nodup_iff, hnames]
    exact hnodup
  · rw [hreport name st ho hblank, hmem]
    constructor
    · rintro ⟨⟨i, hi, hst⟩, rfl⟩
      exact ⟨i, hi, (hname i hi st hst).symm, hst⟩
    · rintro ⟨i, hi, rfl, hst⟩
      exact ⟨⟨i, hi, hst⟩, hname i hi st hst⟩

end Items

/-! ## Disks -/

/-- The entries of a tree are coherent: no two stand at one place, and every name leads one step
down. -/
structure HostTree.Filed (t : HostTree) : Prop where
  nodup : (t.entries.map Prod.fst).Nodup
  ordinary : ∀ e ∈ t.entries, ∀ n ∈ e.1, Ordinary n

instance (t : HostTree) : Decidable t.Filed :=
  decidable_of_iff
    ((t.entries.map Prod.fst).Nodup ∧ ∀ e ∈ t.entries, ∀ n ∈ e.1, Ordinary n)
    ⟨fun h => ⟨h.1, h.2⟩, fun h => ⟨h.nodup, h.ordinary⟩⟩

namespace Disk

variable {d : Disk} {dirs before : List String} {name path other : String} {place : Place}
variable {st status : Status} {entries : List Status}

/-- A way past directories may go on below the last of them. -/
theorem checkWay_concat (hc : d.checkWay path before dirs = .ok ())
    (hs : dirs ≠ [] → ∃ entry, d.tree.stat false (home :: (before ++ dirs)) = .ok entry ∧
      entry.node = .directory) : d.checkWay other before (dirs ++ [name]) = .ok () := by
  induction dirs generalizing before with
  | nil => rfl
  | cons next rest ih =>
    have hmore : d.checkWay other (before ++ [next]) (rest ++ [name]) = .ok () := by
      refine ih ?_ fun _ => ?_
      · rcases rest with - | ⟨second, rest⟩
        · rfl
        · rw [checkWay] at hc
          · split at hc
            · cases hc
            · cases hc
            · exact hc
          · simp
      · simpa using hs (by simp)
    rw [List.cons_append, checkWay]
    swap
    · simp
    split
    · rename_i text accessed modified hlink
      rcases rest with - | ⟨second, rest⟩
      · obtain ⟨entry, hentry, hnode⟩ := hs (by simp)
        rw [hlink] at hentry
        cases hentry
        cases hnode
      · rw [checkWay, hlink] at hc
        · cases hc
        · simp
    · rename_i hlong
      rcases rest with - | ⟨second, rest⟩
      · obtain ⟨entry, hentry, -⟩ := hs (by simp)
        rw [hlong] at hentry
        cases hentry
      · rw [checkWay, hlong] at hc
        · cases hc
        · simp
    · exact hmore

/-- The host comes to a directory by its path, and reports it. -/
structure Leads (d : Disk) (dirs : List String) (place : Place) : Prop where
  plain : Table.Plain dirs
  read : Path.read (rootText dirs) = .ok ⟨{}, dirs, true⟩
  check : d.checkWay (rootText dirs) [] dirs = .ok ()
  found : d.tree.placeOf false (home :: dirs) = .ok place
  node : d.tree.node? place = some .directory

theorem leads_of_status (hd : Table.Plain dirs) (hs : d.status (rootText dirs) = .ok (some st))
    (hk : st.kind = .directory) : ∃ place, d.Leads dirs place := by
  obtain ⟨way, entry, hw, hstat, hreport⟩ := status_eq_some hs
  obtain ⟨p, hread, hcheck, rfl⟩ := way_eq_ok.mp hw
  obtain rfl := eq_of_read_rootText hd.ordinary hread
  rw [hd.settle_eq] at hread hcheck hstat
  obtain ⟨place, hplace, hfind⟩ := HostTree.stat_eq_ok.mp hstat
  refine ⟨place, hd, hread, hcheck, hplace, ?_⟩
  rw [HostTree.node?, hfind, Option.map_some, directory_of_report hreport hk]

namespace Leads

variable (h : d.Leads dirs place)

include h

theorem way_eq : d.way (rootText dirs) = .ok (home :: dirs) :=
  way_eq_ok.mpr ⟨_, h.read, h.check, rfl⟩

theorem place?_eq : d.place? (rootText dirs) = some place := place?_eq_some h.way_eq h.found

theorem follow : d.tree.placeOf true (home :: dirs) = .ok place :=
  HostTree.placeOf_follow h.found (by simp [h.node])

theorem stat_eq : ∃ entry, d.tree.stat false (home :: dirs) = .ok entry ∧
    entry.node = .directory := by
  obtain ⟨entry, hfind, hnode⟩ := HostTree.node?_eq_some.mp h.node
  exact ⟨entry, HostTree.stat_eq_ok.mpr ⟨_, h.found, hfind⟩, hnode⟩

/-- The host finds a name in the directory unless it refuses the way or the name. -/
theorem placeOf_child_iff (ho : Ordinary name) {there : Place} :
    d.tree.placeOf false (home :: (dirs ++ [name])) = .ok there ↔
      d.tree.limits.refusesWay (home :: (dirs ++ [name])) = false ∧
        d.tree.limits.refusesName name = false ∧ there = place ++ [name] := by
  have hlocate : d.tree.locate false HostTree.maxLinks [] (home :: (dirs ++ [name])) =
      if d.tree.limits.refusesName name then .error .nameTooLong else .ok (place ++ [name]) := by
    have hdots := HostTree.isDots_of_ordinary ho
    exact HostTree.locate_concat hdots h.node (HostTree.placeOf_eq_ok.mp h.follow).2
  rw [HostTree.placeOf, hlocate]
  cases d.tree.limits.refusesWay (home :: (dirs ++ [name])) <;>
    cases d.tree.limits.refusesName name <;> simp [eq_comm]

theorem way_child (hp : Table.Plain (dirs ++ [name])) {p : Path}
    (hread : Path.read (rootText (dirs ++ [name])) = .ok p) :
    d.way (rootText (dirs ++ [name])) = .ok (home :: (dirs ++ [name])) := by
  have hcheck : d.checkWay (rootText (dirs ++ [name])) [] (dirs ++ [name]) = .ok () :=
    checkWay_concat h.check fun _ => h.stat_eq
  refine way_eq_ok.mpr ⟨p, hread, ?_⟩
  rw [eq_of_read_rootText hp.ordinary hread, hp.settle_eq]
  exact ⟨hcheck, rfl⟩

/-- What is reported below the directory stands below the place, where the host can look it up. -/
theorem status_child_iff (ho : Ordinary name) (hblank : ¬EndsBlank name) :
    d.status (rootText (dirs ++ [name])) = .ok (some status) ↔
      ∃ entry, d.tree.find? (place ++ [name]) = some entry ∧
        d.tree.limits.refusesWay (home :: (dirs ++ [name])) = false ∧
        d.tree.limits.refusesName name = false ∧
        report (rootText (dirs ++ [name])) entry = .ok status := by
  have hplain : Table.Plain (dirs ++ [name]) :=
    List.forall_mem_append.mpr ⟨h.plain, by simpa using ⟨ho, hblank⟩⟩
  constructor
  · intro hs
    obtain ⟨way, entry, hw, hstat, hreport⟩ := status_eq_some hs
    obtain ⟨p, hread, -, -⟩ := way_eq_ok.mp hw
    obtain rfl := Except.ok.inj (hw.symm.trans (h.way_child hplain hread))
    obtain ⟨there, hthere, hfind⟩ := HostTree.stat_eq_ok.mp hstat
    obtain ⟨hway, hname, rfl⟩ := (h.placeOf_child_iff ho).mp hthere
    exact ⟨entry, hfind, hway, hname, hreport⟩
  · rintro ⟨entry, hfind, hway, hname, hreport⟩
    have hw := h.way_child hplain (read_of_report hreport)
    have hplace := (h.placeOf_child_iff ho).mpr ⟨hway, hname, rfl⟩
    rw [status_of_place? (place?_eq_some hw hplace), hfind]
    dsimp only
    rw [hreport]
    rfl

/-- The entries of the directory are listed if they can be looked up. -/
theorem list_eq_ok (hl : d.list (rootText dirs) = .ok entries) :
    d.tree.Reached (home :: dirs) place ∧ ∃ found, entries.Perm found ∧
      (d.tree.childrenOf place).mapM (fun e =>
        report ((⟨{}, dirs, true⟩ : Path).child [e.1]).localText e.2) = .ok found := by
  obtain ⟨hfound, hfail⟩ := HostTree.list_of_placeOf h.follow h.node
  unfold Disk.list at hl
  by_cases hreached : d.tree.Reached (home :: dirs) place
  swap
  · simp only [h.way_eq, h.read, hfail hreached, bind, Except.bind, fromHost,
      Except.mapError] at hl
    cases hl
  refine ⟨hreached, ?_⟩
  simp only [h.way_eq, h.read, hfound hreached, bind, Except.bind, fromHost,
    Except.mapError] at hl
  split at hl
  · cases hl
  rename_i found hmap
  cases hl
  exact ⟨found, List.mergeSort_perm _ _, hmap⟩

end Leads

/-- **A disk lists what it reports.** -/
theorem listed (hf : d.tree.Filed) (h : d.Leads dirs place)
    (hblank : ∀ e ∈ d.tree.childrenOf place, ¬EndsBlank e.1)
    (hl : d.list (rootText dirs) = .ok entries) : Listed d.status dirs entries := by
  obtain ⟨hreached, found, hperm, hmap⟩ := h.list_eq_ok hl
  have hordinary : ∀ e ∈ d.tree.childrenOf place, Ordinary e.1 := fun e he =>
    hf.ordinary _ (HostTree.mem_childrenOf.mp he) e.1 (by simp)
  have hplain : ∀ e ∈ d.tree.childrenOf place, Table.Plain (dirs ++ [e.1]) := fun e he =>
    List.forall_mem_append.mpr ⟨h.plain, by simpa using ⟨hordinary e he, hblank e he⟩⟩
  have htext : ∀ e ∈ d.tree.childrenOf place,
      ((⟨{}, dirs, true⟩ : Path).child [e.1]).localText = rootText (dirs ++ [e.1]) :=
    fun e he => child_localText (hplain e he).ordinary rfl
  refine .of_items Prod.fst hmap hperm (fun e he st hst => ?_)
    (fun e he => ⟨hordinary e he, hblank e he⟩) (HostTree.nodup_childrenOf hf.nodup place)
    fun name st ho hb => ?_
  · rw [htext e he] at hst
    rw [eq_of_read_rootText (hplain e he).ordinary (read_of_report hst), (hplain e he).settle_eq]
    simp [Path.name]
  · rw [h.status_child_iff ho hb]
    constructor
    · rintro ⟨entry, hfind, -, -, hreport⟩
      have he : (name, entry) ∈ d.tree.childrenOf place :=
        HostTree.mem_childrenOf.mpr ((lookup_eq_some_iff_mem hf.nodup).mp hfind)
      exact ⟨(name, entry), he, rfl, by rwa [htext _ he]⟩
    · rintro ⟨⟨found, entry⟩, he, rfl, hreport⟩
      rw [htext _ he] at hreport
      obtain ⟨hway, hname⟩ := hreached _ he
      exact ⟨entry, (lookup_eq_some_iff_mem hf.nodup).mpr (HostTree.mem_childrenOf.mp he), hway,
        hname, hreport⟩

end Disk

/-! ## Tables -/

/-- The row is kept under a canonical text, which is split into its directory and its name. -/
structure Row.Filed (row : Row) (dirs : List String) (name : String) : Prop where
  address : Path.Canonical row.path (dirs ++ [name])
  parent_eq : row.parent = rootText dirs
  name_eq : row.name = name

/-- The rows of a table are coherent: no two have one path, and each has its directory and its name
from its path.  A row that is stored as the root is left out, although the rows of a table may be
canonical with one: it counts as held by the root, and would be listed there without a name. -/
structure Table.Filed (t : Table) : Prop where
  nodup : (t.rows.map Row.path).Nodup
  row : ∀ row ∈ t.rows, ∃ dirs name, row.Filed dirs name

namespace Table

variable {t : Table} {dirs : List String} {name : String} {row : Row} {status : Status}
variable {entries : List Status}

/-- A row belongs to the directory below which its path lies. -/
theorem Filed.of_path (h : t.Filed) (hn : ∀ n ∈ dirs ++ [name], Ordinary n) (hrow : row ∈ t.rows)
    (hpath : row.path = rootText (dirs ++ [name])) : row.Filed dirs name := by
  obtain ⟨front, last, hfiled⟩ := h.row row hrow
  have heq := rootText_inj hfiled.address.ordinary hn (hfiled.address.text_eq.symm.trans hpath)
  obtain ⟨rfl, hlast⟩ := List.append_inj' heq rfl
  cases hlast
  exact hfiled

/-- A row belongs to the directory that it names. -/
theorem Filed.of_parent (h : t.Filed) (hd : ∀ n ∈ dirs, Ordinary n) (hrow : row ∈ t.rows)
    (hparent : row.parent = rootText dirs) : row.Filed dirs row.name := by
  obtain ⟨front, last, haddress, hfront, rfl⟩ := h.row row hrow
  have hordinary : ∀ n ∈ front, Ordinary n := fun n hn => haddress.ordinary n (by simp [hn])
  obtain rfl := rootText_inj hordinary hd (hfront.symm.trans hparent)
  exact ⟨haddress, hparent, rfl⟩

/-- What is reported below a directory is a row that it holds. -/
theorem Filed.status_child_iff (h : t.Filed) (hd : ∀ n ∈ dirs, Ordinary n) {rows : List Row}
    (hall : t.all = .ok rows) (ho : Ordinary name) (hblank : ¬EndsBlank name) :
    t.status (rootText (dirs ++ [name])) = .ok (some status) ↔
      ∃ row ∈ t.rows, row.parent = rootText dirs ∧ row.name = name ∧
        row.status = .ok status := by
  have hnames : ∀ n ∈ dirs ++ [name], Ordinary n :=
    List.forall_mem_append.mpr ⟨hd, by simpa using ho⟩
  have hsettle : settle (dirs ++ [name]) = dirs ++ [name] :=
    (settle_eq_self_iff hnames).mpr fun n hn => by simpa [← Option.some.inj (by simpa using hn)]
  have hne : rootText (dirs ++ [name]) ≠ "/" := rootText_ne hnames (by simp)
  have hfind : t.find (rootText (dirs ++ [name])) =
      .ok (t.rows.find? (·.path == rootText (dirs ++ [name]))) := by
    rw [find, hall, rows_of_all hall]
    rfl
  constructor
  · intro hs
    have hkey : Table.key (rootText (dirs ++ [name])) = .ok (rootText (dirs ++ [name])) := by
      obtain ⟨key, hkey, -⟩ := status_cases hs
      rw [hkey, key_rootText hnames hkey, hsettle]
    rw [status_of_find hkey hne hfind] at hs
    cases hrow : t.rows.find? (·.path == rootText (dirs ++ [name])) with
    | none =>
      rw [hrow] at hs
      cases hs
    | some row =>
      rw [hrow] at hs
      obtain ⟨found, hst, heq⟩ := map_eq_ok.mp hs
      cases heq
      obtain ⟨hmem, hpath⟩ := find_eq_some (hrow ▸ hfind)
      have hfiled := h.of_path hnames hmem hpath
      exact ⟨row, hmem, hfiled.parent_eq, hfiled.name_eq, hst⟩
  · rintro ⟨row, hmem, hparent, rfl, hst⟩
    have haddress := (h.of_parent hd hmem hparent).address
    have hkey : Table.key (rootText (dirs ++ [row.name])) =
        .ok (rootText (dirs ++ [row.name])) := by
      rw [← haddress.text_eq, key, haddress.read, haddress.text_eq]
      rfl
    rw [find?_of_nodup h.nodup hmem haddress.text_eq] at hfind
    rw [status_of_find hkey hne hfind]
    exact congrArg (some <$> ·) hst

/-- **A table lists what it reports.** -/
theorem listed (hf : t.Filed) (hd : Table.Plain dirs) (hl : t.list (rootText dirs) = .ok entries) :
    Listed t.status dirs entries := by
  obtain ⟨key, rows, hkey, hall, -, hmap⟩ := list_eq_ok_iff.mp hl
  rw [key_rootText hd.ordinary hkey, hd.settle_eq, ← rows_of_all hall] at hmap
  set held := (t.rows.filter (·.parent == rootText dirs)).mergeSort fun a b => a.name ≤ b.name
  have hmem : ∀ row, row ∈ held ↔ row ∈ t.rows ∧ row.parent = rootText dirs := by
    intro row
    rw [List.mem_mergeSort, List.mem_filter, beq_iff_eq]
  have hfiled : ∀ row ∈ held, row.Filed dirs row.name := fun row hrow =>
    hf.of_parent hd.ordinary ((hmem row).mp hrow).1 ((hmem row).mp hrow).2
  refine .of_items Row.name hmap (List.Perm.refl entries) (fun row hrow st hst => ?_)
    (fun row hrow => ?_) ?_ fun name st ho hblank => ?_
  · have hread := Row.read_of_status hst
    rw [(hfiled row hrow).address.read] at hread
    rw [← Except.ok.inj hread]
    simp [Path.name]
  · have haddress := (hfiled row hrow).address
    refine ⟨haddress.ordinary _ (by simp), ?_⟩
    exact (settle_eq_self_iff haddress.ordinary).mp haddress.settle_eq _ (by simp)
  · have hnodup : held.Nodup :=
      (List.mergeSort_perm _ _).nodup_iff.mpr ((List.Nodup.of_map _ hf.nodup).filter _)
    refine hnodup.map_on fun row hrow other hother heq => ?_
    refine List.inj_on_of_nodup_map hf.nodup ((hmem row).mp hrow).1 ((hmem other).mp hother).1 ?_
    rw [(hfiled row hrow).address.text_eq, (hfiled other hother).address.text_eq, heq]
  · rw [hf.status_child_iff hd.ordinary hall ho hblank]
    constructor
    · rintro ⟨row, hrow, hparent, hname, hst⟩
      exact ⟨row, (hmem row).mpr ⟨hrow, hparent⟩, hname, hst⟩
    · rintro ⟨row, hrow, hname, hst⟩
      obtain ⟨hin, hparent⟩ := (hmem row).mp hrow
      exact ⟨row, hin, hparent, hname, hst⟩

end Table

end MountSpace
