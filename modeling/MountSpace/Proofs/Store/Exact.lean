import MountSpace.Proofs.Store.Tree

/-!
# Columns that agree

A row keeps its path three times over, as a whole and as directory and name, and the length of its
content beside the content.  Every operation that is given a path without blanks at the ends of its
names writes these copies so that they agree, also for the rows that a move takes along.

## Main definitions

* `Row.At` — a row kept under the text of a path, with its directory and its name.
* `Row.Exact`, `Table.Exact` — rows whose columns agree, no two under one path.

Main statements: `Table.Exact.write`, `Table.Exact.move`.
-/

namespace MountSpace

open MountSpace.Path

/-- The row is kept under the text of the path, with the directory and the name of the path. -/
structure Row.At (row : Row) (p : Path) : Prop where
  /-- The text is read as the path. -/
  read : Path.read row.path = .ok p
  /-- The path is written out as the text. -/
  path_eq : p.localText = row.path
  /-- The directory is that of the path. -/
  parent_eq : p.parent?.map Path.localText = some row.parent
  /-- The name is the last one of the path. -/
  name_eq : p.segments.getLast? = some row.name
  /-- The path starts at the root of an unnamed store. -/
  rooted : p = ⟨{}, p.segments, true⟩
  /-- Its names are kept as they are. -/
  plain : Table.Plain p.segments

/-- The columns of the row agree. -/
structure Row.Exact (row : Row) : Prop where
  /-- It is kept under the text of a path. -/
  address : ∃ p, row.At p
  /-- The root has no row. -/
  path_ne : row.path ≠ "/"
  /-- The size is the length of the content, 0 without content. -/
  size_eq : row.size = (row.content.getD []).length
  /-- A directory has no content. -/
  content_eq : row.kind = .directory → row.content = none
  /-- Links, and nothing else, have a target. -/
  target_iff : row.target.isSome ↔ row.kind = .link

/-- The columns of all rows agree, and no two rows have one path. -/
structure Table.Exact (t : Table) : Prop where
  nodup : (t.rows.map Row.path).Nodup
  row : ∀ row ∈ t.rows, row.Exact

variable {row : Row} {p : Path} {names : List String}

theorem Row.At.path_eq_rootText (h : row.At p) : row.path = rootText p.segments := by
  rw [← h.path_eq, h.rooted]
  rfl

theorem Row.At.ne_nil (h : row.At p) : p.segments ≠ [] := by
  intro hnil
  have hname := h.name_eq
  rw [hnil] at hname
  cases hname

theorem Row.At.of_eq {other : Row} (h : row.At p) (hpath : other.path = row.path)
    (hparent : other.parent = row.parent) (hname : other.name = row.name) : other.At p where
  read := hpath ▸ h.read
  path_eq := hpath ▸ h.path_eq
  parent_eq := hparent ▸ h.parent_eq
  name_eq := hname ▸ h.name_eq
  rooted := h.rooted
  plain := h.plain

/-- Where a row is kept is said by its path, directory and name. -/
theorem Row.Exact.address_of_eq {other : Row} (h : row.Exact) (hpath : other.path = row.path)
    (hparent : other.parent = row.parent) (hname : other.name = row.name) : ∃ p, other.At p := by
  obtain ⟨p, hat⟩ := h.address
  exact ⟨p, hat.of_eq hpath hparent hname⟩

/-- The directory of a row, said by names. -/
theorem Row.At.parent_eq_rootText (h : row.At p) :
    row.parent = rootText p.segments.dropLast := by
  have hparent := h.parent_eq
  rw [h.rooted] at hparent
  have hne := h.ne_nil
  cases hsegments : p.segments with
  | nil => exact absurd hsegments hne
  | cons first rest =>
    rw [hsegments] at hparent
    simpa [parent?, rootText] using hparent.symm

/-- A row is kept under a path if the path's text was split for it. -/
theorem Row.at_of_split (hp : Table.Plain names) (hne : names ≠ []) {parent name : String}
    (hsplit : Table.split (rootText names) = .ok (parent, name)) (hpath : row.path = rootText names)
    (hparent : row.parent = parent) (hname : row.name = name) : row.At ⟨{}, names, true⟩ := by
  subst hparent hname
  obtain ⟨q, hread, hsplit⟩ := bind_eq_ok.mp hsplit
  obtain rfl := eq_of_read_rootText hp.ordinary hread
  rw [hp.settle_eq] at hread hsplit
  cases hnames : names with
  | nil => exact absurd hnames hne
  | cons first rest =>
    rw [hnames] at hread hsplit hpath hp
    have hlast : (first :: rest).getLast? = some ((first :: rest).getLast (by simp)) :=
      List.getLast?_eq_some_getLast (by simp)
    have hboth : row.parent = rootText (first :: rest).dropLast ∧
        row.name = (first :: rest).getLast (by simp) := by
      have hpair := Except.ok.inj hsplit
      simp only [Path.name, hlast, Option.getD_some, Prod.mk.injEq] at hpair
      exact ⟨by rw [← hpair.1]; simp [parent?, rootText], hpair.2.symm⟩
    constructor
    · rw [hpath]
      exact hread
    · exact hpath.symm
    · rw [hboth.1]
      simp [parent?, rootText]
    · rw [hboth.2]
      exact hlast
    · rfl
    · exact hp

namespace Table

variable {t t' : Table} {now : Instant} {key : String} {source : Row}

theorem exact_of_nil (h : t.rows = []) : t.Exact := ⟨by simp [h], by simp [h]⟩

/-- A path without blanks at the ends of its names is its own key. -/
theorem Plain.key_eq (hp : Plain names) (hk : Table.key (rootText names) = .ok key) :
    key = rootText names := by
  rw [key_rootText hp.ordinary hk, hp.settle_eq]

namespace Exact

/-- A row found under a key is the only one there. -/
theorem eq_of_find (h : t.Exact) (hfind : t.find key = .ok (some source)) (hrow : row ∈ t.rows)
    (hpath : row.path = key) : row = source := by
  obtain ⟨hsource, hkey⟩ := find_eq_some hfind
  exact List.inj_on_of_nodup_map h.nodup hrow hsource (hpath.trans hkey.symm)

/-! ## Adding and changing rows -/

theorem insert (h : t.Exact) (hp : Plain names) (hne : names ≠ []) {kind : Kind}
    {content : Option Bytes} {target : Option String}
    (hcontent : kind = .directory → content = none)
    (htarget : target.isSome ↔ kind = .link)
    (hi : t.insert now (rootText names) kind content target = .ok t') : t'.Exact := by
  obtain ⟨parent, name, hsplit, hrows⟩ := row_of_insert hi
  have hfree := find_eq_none (find_of_insert hi)
  constructor
  · rw [hrows, List.map_append, List.nodup_append]
    refine ⟨h.nodup, by simp, ?_⟩
    rintro path hpath other hother rfl
    obtain ⟨r, hr, rfl⟩ := List.mem_map.mp hpath
    exact hfree r hr (by simpa using hother)
  · intro row hrow
    rw [hrows] at hrow
    rcases List.mem_append.mp hrow with hrow | hrow
    · exact h.row row hrow
    · rw [List.mem_singleton.mp hrow]
      exact ⟨⟨_, Row.at_of_split hp hne hsplit rfl rfl rfl⟩, rootText_ne hp.ordinary hne, rfl,
        hcontent, htarget⟩

/-- A change that leaves every row exact, and under its path, leaves the table exact. -/
theorem modify (h : t.Exact) {f : Row → Row}
    (hf : ∀ r ∈ t.rows, r.path = key → (f r).Exact ∧ (f r).path = r.path) :
    (t.modify key f).Exact := by
  constructor
  · have hsame : (t.modify key f).rows.map Row.path = t.rows.map Row.path := by
      rw [rows_modify, List.map_map]
      refine List.map_congr_left fun r hr => ?_
      dsimp only [Function.comp_apply]
      split
      · rename_i hkey
        exact (hf r hr (eq_of_beq hkey)).2
      · rfl
    rw [hsame]
    exact h.nodup
  · intro row hrow
    rw [rows_modify] at hrow
    obtain ⟨r, hr, rfl⟩ := List.mem_map.mp hrow
    split
    · rename_i hkey
      exact (hf r hr (eq_of_beq hkey)).1
    · exact h.row r hr

/-- Writing a file puts its content and its size into one row. -/
theorem write (h : t.Exact) (hp : Plain names) (hne : names ≠ []) {data : Bytes}
    {overwrite : Bool} (hw : t.write now (rootText names) data overwrite = .ok t') : t'.Exact := by
  obtain ⟨key, hkey, hinsert | ⟨row, hfind, -, hkind, rfl⟩⟩ := write_cases hw
  · rw [hp.key_eq hkey] at hinsert
    exact h.insert hp hne (by simp) (by simp) hinsert
  · refine h.modify fun r hr hpath => ⟨?_, rfl⟩
    obtain rfl := h.eq_of_find hfind hr hpath
    have hr := h.row r hr
    exact ⟨hr.address_of_eq rfl rfl rfl, hr.path_ne, rfl,
      by simp [hkind], hr.target_iff⟩

/-- Appending puts the longer content and its size into one row. -/
theorem append (h : t.Exact) {path : String} {data : Bytes}
    (ha : t.append now path data = .ok t') : t'.Exact := by
  obtain ⟨key, row, -, hfind, hkind, rfl⟩ := append_eq_ok ha
  refine h.modify fun r hr hpath => ⟨?_, rfl⟩
  obtain rfl := h.eq_of_find hfind hr hpath
  have hr := h.row r hr
  exact ⟨hr.address_of_eq rfl rfl rfl, hr.path_ne, rfl,
    fun hdir => absurd hdir hkind, hr.target_iff⟩

theorem makeDirectory (h : t.Exact) (hp : Plain names) (hne : names ≠ [])
    (hm : t.makeDirectory now (rootText names) = .ok t') : t'.Exact := by
  obtain ⟨key, -, -, hkey, -, -, hinsert⟩ := insert_of_makeDirectory hm
  rw [hp.key_eq hkey] at hinsert
  exact h.insert hp hne (by simp) (by simp) hinsert

theorem makeLink (h : t.Exact) (hp : Plain names) (hne : names ≠ []) {text : String}
    (hl : t.makeLink now (rootText names) text = .ok t') : t'.Exact := by
  obtain ⟨key, hkey, hinsert⟩ := insert_of_makeLink hl
  rw [hp.key_eq hkey] at hinsert
  exact h.insert hp hne (by simp) (by simp) hinsert

theorem setTimes (h : t.Exact) {path : String} {accessed modified : Option Moment}
    (hs : t.setTimes path accessed modified = .ok t') : t'.Exact := by
  rcases setTimes_cases hs with rfl | ⟨key, accessed, modified, rfl⟩
  · exact h
  · refine h.modify fun r hr hpath => ⟨?_, rfl⟩
    have hr := h.row r hr
    exact ⟨hr.address_of_eq rfl rfl rfl, hr.path_ne, hr.size_eq,
      hr.content_eq, hr.target_iff⟩

/-! ## Taking rows away -/

theorem remove (h : t.Exact) {recursive : Bool} (hr : t.remove source recursive = .ok t') :
    t'.Exact where
  nodup := by
    rw [rows_of_remove hr]
    exact h.nodup.sublist (List.filter_sublist.map _)
  row row hrow := h.row row ((mem_remove_iff hr).mp hrow).1

theorem delete (h : t.Exact) {path : String} {recursive found : Bool}
    (hd : t.delete path recursive = .ok (found, t')) : t'.Exact := by
  rcases rows_of_delete hd with ⟨-, rfl⟩ | ⟨-, key, row, -, -, hr⟩
  · exact h
  · exact h.remove hr

/-! ## Moving rows -/

/-- A row that is moved, or moved along, is kept under its new path. -/
theorem moves (h : t.Exact) {S D : List String} (hS : Plain S) (hD : Plain D) (hSne : S ≠ [])
    (hDne : D ≠ []) (hsource : source ∈ t.rows) {r r' : Row} (hr : r ∈ t.rows)
    (hm : Moves source (rootText S) (rootText D) r r') : r'.Exact := by
  unfold Moves at hm
  split at hm
  · obtain ⟨parent, name, hsplit, rfl⟩ := hm
    have hrow := h.row source hsource
    exact ⟨⟨_, Row.at_of_split hD hDne hsplit rfl rfl rfl⟩, rootText_ne hD.ordinary hDne,
      hrow.size_eq, hrow.content_eq, hrow.target_iff⟩
  split at hm
  · rename_i hunder
    obtain ⟨parent, name, hsplit, rfl⟩ := hm
    have hrow := h.row r hr
    obtain ⟨p, hat⟩ := hrow.address
    have hpath := hat.path_eq_rootText
    rw [hpath] at hunder
    obtain ⟨front, rest, hrest, hnames, hlow⟩ :=
      (isUnder_iff hS.ordinary hat.plain.ordinary hSne).mp hunder.2
    have hplain := hat.plain
    rw [hnames] at hpath hplain
    have hnew : rebase (rootText S) (rootText D) r.path = rootText (D ++ rest) := by
      rw [hpath, rebase_rootText hSne hDne hlow]
    rw [hnew] at hsplit ⊢
    have hboth : Plain (D ++ rest) := fun n hn =>
      (List.mem_append.mp hn).elim (hD n) fun hn => hplain n (by simp [hn])
    have hne : D ++ rest ≠ [] := by simp [hDne]
    exact ⟨⟨_, Row.at_of_split hboth hne hsplit rfl rfl rfl⟩, rootText_ne hboth.ordinary hne,
      hrow.size_eq, hrow.content_eq, hrow.target_iff⟩
  · subst hm
    exact h.row _ hr

/-- **A move rewrites the paths, directories and names of all rows that it takes along**, so that
they agree again. -/
theorem move (h : t.Exact) {S D : List String} (hS : Plain S) (hD : Plain D) (hDne : D ≠ [])
    {overwrite : Bool} (hm : t.move (rootText S) (rootText D) overwrite = .ok t') : t'.Exact := by
  obtain ⟨src, dest, source, cleared, hsrc, hdest, hfind, hclears, hmove⟩ := moveRows_of_move hm
  obtain rfl := hS.key_eq hsrc
  obtain rfl := hD.key_eq hdest
  obtain ⟨hsource, hpath⟩ := find_eq_some hfind
  have hSne : S ≠ [] := by
    rintro rfl
    exact (h.row source hsource).path_ne hpath
  have hcleared : cleared.Exact := by
    cases hclears with
    | free _ heq => rwa [heq]
    | removed _ _ hremove => exact h.remove hremove
  rcases moves_of_moveRows hmove with ⟨-, rfl⟩ | ⟨-, hmoves, ⟨first, hfirst, hfirstPath⟩, hnodup⟩
  · exact hcleared
  · refine ⟨hnodup, fun r' hr' => ?_⟩
    obtain ⟨r, hr, hmoved⟩ := exists_left_of_forall₂ hmoves hr'
    -- The source was not cleared away.
    obtain rfl : first = source := h.eq_of_find hfind (hclears.mem hfirst) hfirstPath
    exact hcleared.moves hS hD hSne hDne hfirst hr hmoved

end Exact

end Table

end MountSpace
