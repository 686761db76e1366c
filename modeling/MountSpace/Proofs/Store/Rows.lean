import MountSpace.Proofs.Outcome
import MountSpace.Proofs.Path.Reading
import MountSpace.Store.Table

/-!
# What operations do to rows

Each operation on a table, said as what it does to the list of rows.  The paths that a table is
given are names written out from a root, and are stored as these are read again.

The prefix match takes in more than the entries below a path: it does not see the case of ASCII
letters.  On names it says that the path continues one with the same lower-case names.

## Main definitions

* `lowered` — names without regard to case.
* `Table.Swept` — the rows that removing or moving a directory takes along.
* `Table.Moves` — what a move does to one row.
-/

namespace MountSpace

open MountSpace.Path

/-! ## Rows as they are reported -/

/-- What the text of the target of a row is read as; an empty text is none. -/
def Row.destination (row : Row) : Except Error (Option Path) :=
  match row.target with
  | none | some "" => .ok none
  | some text => some <$> Path.read text

namespace Row

variable {row : Row} {status : Status} {target : Path} {text : String}

theorem destination_of_none (h : row.target = none) : row.destination = .ok none := by
  rw [destination, h]

theorem destination_of_text (h : row.target = some text) (hne : text ≠ "") :
    row.destination = some <$> Path.read text := by
  simp only [destination, h]

theorem destination_eq_some (h : row.destination = .ok (some target)) :
    ∃ text, row.target = some text ∧ Path.read text = .ok target := by
  unfold destination at h
  split at h
  · cases h
  · cases h
  · rename_i text _ htext
    obtain ⟨found, hread, heq⟩ := map_eq_ok.mp h
    cases heq
    exact ⟨text, htext, hread⟩

theorem destination_congr {other : Row} (h : other.target = row.target) :
    other.destination = row.destination := by
  rw [destination, destination, h]

/-- What is reported of a row is what its columns say. -/
theorem status_eq (row : Row) : row.status =
    Path.read row.path >>= fun p => row.destination >>= fun target =>
      .ok ⟨p, row.kind, if row.kind = .file then row.size else 0,
        some (.ofCivil row.accessed), some (.ofCivil row.modified), target⟩ := by
  unfold Row.status
  generalize (if row.kind = .file then row.size else 0) = size
  split
  · rename_i htarget
    rw [destination_of_none htarget]
    rfl
  · rename_i htarget
    rw [destination, htarget]
    rfl
  · rename_i text hne htarget
    rw [destination_of_text htarget hne]
    rfl

theorem status_eq_ok : row.status = .ok status ↔
    ∃ p target, Path.read row.path = .ok p ∧ row.destination = .ok target ∧
      status = ⟨p, row.kind, if row.kind = .file then row.size else 0,
        some (.ofCivil row.accessed), some (.ofCivil row.modified), target⟩ := by
  simp only [status_eq, bind_eq_ok, Except.ok.injEq, @eq_comm _ _ status]
  constructor
  · rintro ⟨p, hread, target, htarget, hst⟩
    exact ⟨p, target, hread, htarget, hst⟩
  · rintro ⟨p, target, hread, htarget, hst⟩
    exact ⟨p, hread, target, htarget, hst⟩

theorem read_of_status (h : row.status = .ok status) : Path.read row.path = .ok status.path := by
  obtain ⟨p, found, hread, -, rfl⟩ := status_eq_ok.mp h
  exact hread

theorem kind_of_status (h : row.status = .ok status) : status.kind = row.kind := by
  obtain ⟨p, found, -, -, rfl⟩ := status_eq_ok.mp h
  rfl

/-- The target of a row is reported as its text is read. -/
theorem text_of_status (h : row.status = .ok status) (ht : status.target = some target) :
    ∃ text, row.target = some text ∧ Path.read text = .ok target := by
  obtain ⟨p, found, -, hfound, rfl⟩ := status_eq_ok.mp h
  obtain rfl : found = some target := ht
  exact destination_eq_some hfound

end Row

/-! ## Keys -/

namespace Table

variable {t t' : Table} {key path : String} {names : List String} {now : Instant}

/-- A path is stored under its names as they are read again. -/
theorem key_rootText (h : ∀ n ∈ names, Ordinary n) (hk : Table.key (rootText names) = .ok key) :
    key = rootText (settle names) := by
  obtain ⟨p, hread, rfl⟩ := map_eq_ok.mp hk
  rw [eq_of_read_rootText h hread]
  rfl

/-- The directory of a path, once it is read again. -/
theorem split_rootText (h : ∀ n ∈ names, Ordinary n) {parent name : String}
    (hs : Table.split (rootText names) = .ok (parent, name)) :
    parent = rootText (above names) := by
  obtain ⟨p, hread, hs⟩ := bind_eq_ok.mp hs
  rw [eq_of_read_rootText h hread] at hs
  cases hs
  rw [← dropLast_settle h]
  cases hsettle : settle names with
  | nil => rfl
  | cons first rest => simp [parent?, rootText]

/-! ## Finding -/

theorem rows_of_all {rows : List Row} (h : t.all = .ok rows) : t.rows = rows := by
  obtain ⟨rows? | rows'⟩ := t
  · cases h
  · cases h
    rfl

theorem find_eq_ok {row? : Option Row} (h : t.find key = .ok row?) :
    t.rows.find? (·.path == key) = row? := by
  obtain ⟨rows, hall, h⟩ := bind_eq_ok.mp h
  cases h
  rw [rows_of_all hall]

theorem find_eq_some {row : Row} (h : t.find key = .ok (some row)) :
    row ∈ t.rows ∧ row.path = key :=
  ⟨List.mem_of_find?_eq_some (find_eq_ok h), by simpa using List.find?_some (find_eq_ok h)⟩

theorem find_eq_none (h : t.find key = .ok none) : ∀ row ∈ t.rows, row.path ≠ key := by
  simpa using find_eq_ok h

theorem children_eq_nil (h : t.children key = .ok []) : ∀ row ∈ t.rows, row.parent ≠ key := by
  obtain ⟨rows, hall, h⟩ := bind_eq_ok.mp h
  have hsort : ((rows.filter (·.parent == key)).mergeSort fun a b => a.name ≤ b.name) = [] :=
    Except.ok.inj h
  have hperm := List.mergeSort_perm (rows.filter (·.parent == key)) fun a b => a.name ≤ b.name
  rw [hsort] at hperm
  rw [rows_of_all hall]
  simpa using hperm.symm.eq_nil

/-- What is stored under a key is reported, and the root anyway. -/
theorem status_of_root (hkey : Table.key path = .ok "/") :
    t.status path = .ok (some rootStatus) := by
  simp only [Table.status, hkey, bind, Except.bind]
  rfl

/-- Below the root, a table reports what is stored under the key of a path. -/
theorem status_of_find {row? : Option Row} (hkey : Table.key path = .ok key) (hne : key ≠ "/")
    (hfind : t.find key = .ok row?) :
    t.status path = row?.elim (.ok none) fun row => some <$> row.status := by
  unfold Table.status
  simp only [hkey, bind, Except.bind, if_neg hne, hfind]
  cases row? with
  | none => rfl
  | some row => rfl

/-- What is reported is the root, or what is stored under the key of the path. -/
theorem status_cases {found : Option Status} (h : t.status path = .ok found) :
    ∃ key, Table.key path = .ok key ∧ (key = "/" ∧ found = some rootStatus ∨
      key ≠ "/" ∧ t.find key = .ok none ∧ found = none ∨
      key ≠ "/" ∧ ∃ row status, t.find key = .ok (some row) ∧ row.status = .ok status ∧
        found = some status) := by
  obtain ⟨key, hkey, h'⟩ := bind_eq_ok.mp h
  refine ⟨key, hkey, ?_⟩
  by_cases hroot : key = "/"
  · subst hroot
    exact .inl ⟨rfl, Except.ok.inj (h.symm.trans (status_of_root hkey))⟩
  rw [if_neg hroot] at h'
  obtain ⟨row?, hfind, -⟩ := bind_eq_ok.mp h'
  rw [status_of_find hkey hroot hfind] at h
  cases row? with
  | none => exact .inr (.inl ⟨hroot, hfind, (Except.ok.inj h).symm⟩)
  | some row =>
    obtain ⟨status, hstatus, rfl⟩ := map_eq_ok.mp h
    exact .inr (.inr ⟨hroot, row, status, hfind, hstatus, rfl⟩)

/-- A path that is read as the root is reported as the root. -/
theorem status_of_settle_nil (hn : ∀ n ∈ names, Ordinary n) (hs : settle names = [])
    {found : Option Status} (h : t.status (rootText names) = .ok found) :
    found = some rootStatus := by
  obtain ⟨key, hkey, -⟩ := status_cases h
  obtain rfl : key = "/" := by
    rw [key_rootText hn hkey, hs, rootText_nil]
  exact Except.ok.inj (h.symm.trans (status_of_root hkey))

/-- What is there is the root, or what its row says. -/
theorem status_eq_some {status : Status} (h : t.status path = .ok (some status)) :
    status = rootStatus ∨
      ∃ key row, Table.key path = .ok key ∧ t.find key = .ok (some row) ∧
        row.status = .ok status := by
  obtain ⟨key, hkey, ⟨-, hroot⟩ | ⟨-, -, hnone⟩ | ⟨-, row, found, hfind, hstatus, hfound⟩⟩ :=
    status_cases h
  · exact .inl (Option.some.inj hroot)
  · cases hnone
  · cases hfound
    exact .inr ⟨key, row, hkey, hfind, hstatus⟩

theorem target_normal {status : Status} (h : t.status path = .ok (some status)) {target : Path}
    (ht : status.target = some target) : target.Normal := by
  rcases status_eq_some h with rfl | ⟨key, row, -, -, hstatus⟩
  · cases ht
  · obtain ⟨text, -, hread⟩ := Row.text_of_status hstatus ht
    exact normal_of_read hread

/-! ## Adding and changing -/

theorem find_of_insert {kind : Kind} {content : Option Bytes} {target : Option String}
    (h : t.insert now key kind content target = .ok t') : t.find key = .ok none := by
  unfold insert at h
  obtain ⟨found, hfind, h⟩ := bind_eq_ok.mp h
  cases found with
  | some row => cases h
  | none => exact hfind

/-- A row is added behind the others, as it is asked for. -/
theorem row_of_insert {kind : Kind} {content : Option Bytes} {target : Option String}
    (h : t.insert now key kind content target = .ok t') :
    ∃ parent name, Table.split key = .ok (parent, name) ∧ t'.rows = t.rows ++ [{
      path := key, parent, name, kind, content, size := (content.getD []).length, target
      accessed := now.toCivil, modified := now.toCivil }] := by
  unfold insert at h
  obtain ⟨found, -, h⟩ := bind_eq_ok.mp h
  cases found with
  | some row => cases h
  | none =>
    obtain ⟨⟨parent, name⟩, hsplit, h⟩ := bind_eq_ok.mp h
    obtain ⟨rows, hall, h⟩ := bind_eq_ok.mp h
    cases h
    exact ⟨parent, name, hsplit, by rw [rows_of_all hall]; rfl⟩

/-- A row is added under a text that no row has. -/
theorem rows_of_insert {kind : Kind} {content : Option Bytes} {target : Option String}
    (h : t.insert now key kind content target = .ok t') :
    ∃ row, t'.rows = t.rows ++ [row] ∧ row.path = key ∧ row.kind = kind ∧
      Table.split key = .ok (row.parent, row.name) ∧ ∀ r ∈ t.rows, r.path ≠ key := by
  obtain ⟨parent, name, hsplit, hrows⟩ := row_of_insert h
  exact ⟨_, hrows, rfl, rfl, hsplit, find_eq_none (find_of_insert h)⟩

@[simp] theorem rows_modify (f : Row → Row) :
    (t.modify key f).rows = t.rows.map fun r => if r.path == key then f r else r := by
  obtain ⟨rows? | rows'⟩ := t <;> rfl

/-- Writing renews the row of a file that is there, or adds one. -/
theorem write_cases {data : Bytes} {overwrite : Bool}
    (h : t.write now path data overwrite = .ok t') :
    ∃ key, Table.key path = .ok key ∧ (t.insert now key .file (some data) none = .ok t' ∨
      ∃ row, t.find key = .ok (some row) ∧ overwrite = true ∧ row.kind = .file ∧
        t' = t.modify key fun r => { r with
          content := some data, size := data.length, modified := now.toCivil,
          accessed := now.toCivil }) := by
  unfold write at h
  obtain ⟨key, hkey, h⟩ := bind_eq_ok.mp h
  obtain ⟨found, hfind, h⟩ := bind_eq_ok.mp h
  cases found with
  | none => exact ⟨key, hkey, .inl h⟩
  | some row =>
    dsimp only at h
    split at h
    · cases h
    rename_i hoverwrite
    split at h
    · cases h
    rename_i hkind
    cases h
    exact ⟨key, hkey, .inr ⟨row, hfind, by simpa using hoverwrite, by simpa using hkind, rfl⟩⟩

theorem findFile_eq_ok {row : Row} (h : t.findFile key = .ok row) :
    t.find key = .ok (some row) ∧ row.kind ≠ .directory := by
  unfold findFile at h
  obtain ⟨found, hfind, h⟩ := bind_eq_ok.mp h
  cases found with
  | none => cases h
  | some other =>
    dsimp only at h
    split at h
    · cases h
    rename_i hkind
    cases h
    exact ⟨hfind, hkind⟩

/-- Appending changes the row of something that is no directory. -/
theorem append_eq_ok {data : Bytes} (h : t.append now path data = .ok t') :
    ∃ key row, Table.key path = .ok key ∧ t.find key = .ok (some row) ∧ row.kind ≠ .directory ∧
      t' = t.modify key fun r => { r with
        content := some (row.content.getD [] ++ data)
        size := (row.content.getD [] ++ data).length, modified := now.toCivil } := by
  unfold append at h
  obtain ⟨key, hkey, h⟩ := bind_eq_ok.mp h
  obtain ⟨row, hrow, h⟩ := bind_eq_ok.mp h
  cases h
  obtain ⟨hfind, hkind⟩ := findFile_eq_ok hrow
  exact ⟨key, row, hkey, hfind, hkind, rfl⟩

/-- Setting times changes nothing else. -/
theorem setTimes_cases {accessed modified : Option Moment}
    (h : t.setTimes path accessed modified = .ok t') :
    t' = t ∨ ∃ key, ∃ accessed modified : Option Civil, t' = t.modify key fun r => { r with
      accessed := accessed.getD r.accessed, modified := modified.getD r.modified } := by
  unfold setTimes at h
  obtain ⟨key, -, h⟩ := bind_eq_ok.mp h
  split at h
  · cases h
    exact .inl rfl
  obtain ⟨found, -, h⟩ := bind_eq_ok.mp h
  cases found with
  | none => cases h
  | some row =>
    obtain ⟨a, -, h⟩ := bind_eq_ok.mp h
    obtain ⟨m, -, h⟩ := bind_eq_ok.mp h
    cases h
    exact .inr ⟨key, a, m, rfl⟩

/-- Two lists of rows agree on where the entries are and which of them are directories. -/
def SameShape (t t' : Table) : Prop :=
  t'.rows.map (fun r => (r.path, r.parent, r.kind)) =
    t.rows.map fun r => (r.path, r.parent, r.kind)

theorem sameShape_modify {f : Row → Row}
    (hf : ∀ r, ((f r).path, (f r).parent, (f r).kind) = (r.path, r.parent, r.kind)) :
    SameShape t (t.modify key f) := by
  rw [SameShape, rows_modify, List.map_map]
  refine List.map_congr_left fun r _ => ?_
  rw [Function.comp_apply]
  split
  · exact hf r
  · rfl

/-- Writing renews a row that is there, or adds a file. -/
theorem shape_of_write {data : Bytes} {overwrite : Bool}
    (h : t.write now path data overwrite = .ok t') :
    SameShape t t' ∨ ∃ key, Table.key path = .ok key ∧
      t.insert now key .file (some data) none = .ok t' := by
  obtain ⟨key, hkey, hinsert | ⟨row, -, -, -, rfl⟩⟩ := write_cases h
  · exact .inr ⟨key, hkey, hinsert⟩
  · exact .inl (sameShape_modify fun _ => rfl)

theorem shape_of_append {data : Bytes} (h : t.append now path data = .ok t') : SameShape t t' := by
  obtain ⟨key, row, -, -, -, rfl⟩ := append_eq_ok h
  exact sameShape_modify fun _ => rfl

theorem shape_of_setTimes {accessed modified : Option Moment}
    (h : t.setTimes path accessed modified = .ok t') : SameShape t t' := by
  rcases setTimes_cases h with rfl | ⟨key, accessed, modified, rfl⟩
  · rfl
  · exact sameShape_modify fun _ => rfl

/-- A directory is added in a directory that is there. -/
theorem insert_of_makeDirectory (h : t.makeDirectory now path = .ok t') :
    ∃ key parent name, Table.key path = .ok key ∧ Table.split key = .ok (parent, name) ∧
      (parent = "/" ∨ ∃ row ∈ t.rows, row.path = parent ∧ row.kind = .directory) ∧
      t.insert now key .directory none none = .ok t' := by
  unfold makeDirectory at h
  obtain ⟨key, hkey, h⟩ := bind_eq_ok.mp h
  obtain ⟨⟨parent, name⟩, hsplit, h⟩ := bind_eq_ok.mp h
  refine ⟨key, parent, name, hkey, hsplit, ?_⟩
  dsimp only at h
  by_cases hroot : parent = "/"
  · rw [if_neg (by simpa using hroot)] at h
    exact ⟨.inl hroot, h⟩
  rw [if_pos hroot] at h
  obtain ⟨found, hfind, h⟩ := bind_eq_ok.mp h
  split at h
  · exact ⟨.inr ⟨_, (find_eq_some hfind).1, (find_eq_some hfind).2, rfl⟩, h⟩
  · cases h

theorem insert_of_makeLink {target : String} (h : t.makeLink now path target = .ok t') :
    ∃ key, Table.key path = .ok key ∧ t.insert now key .link none (some target) = .ok t' := by
  obtain ⟨key, hkey, h⟩ := bind_eq_ok.mp h
  exact ⟨key, hkey, h⟩

/-! ## The prefix match -/

end Table

theorem toLower_eq_slash (c : Char) : c.toLower = '/' ↔ c = '/' := by
  unfold Char.toLower
  split
  · rename_i h
    obtain ⟨hlow, hhigh⟩ := h
    have hlow' : 65 ≤ c.val.toNat := hlow
    have hhigh' : c.val.toNat ≤ 90 := hhigh
    constructor
    · intro heq
      have hval : (c.val + ('a'.val - 'A'.val)).toNat = 47 :=
        congrArg (fun d : Char => d.val.toNat) heq
      rw [UInt32.toNat_add] at hval
      have hshift : ('a'.val - 'A'.val).toNat = 32 := by decide
      omega
    · intro hc
      rw [hc] at hlow'
      exact absurd hlow' (by decide)
  · rfl

/-- Names without regard to the case of ASCII letters. -/
def lowered (names : List String) : List (List Char) :=
  names.map fun name => name.toList.map Char.toLower

theorem lowered_append (names more : List String) :
    lowered (names ++ more) = lowered names ++ lowered more := List.map_append

theorem length_lowered (names : List String) : (lowered names).length = names.length :=
  List.length_map _

theorem map_toLower_spell (names : List String) :
    (spell (names.map String.toList)).map Char.toLower = spell (lowered names) := by
  have hslash : Char.toLower '/' = '/' := by decide
  induction names with
  | nil => rfl
  | cons name names ih => simp [lowered, hslash, ih]

theorem slash_not_mem_lowered {names : List String} (h : ∀ n ∈ names, Ordinary n) :
    ∀ cs ∈ lowered names, '/' ∉ cs := by
  intro cs hcs hmem
  obtain ⟨n, hn, rfl⟩ := List.mem_map.mp hcs
  obtain ⟨c, hc, heq⟩ := List.mem_map.mp hmem
  rw [toLower_eq_slash] at heq
  exact (h n hn).2.2.2 (heq ▸ hc)

/-- Names that continue others after a slash continue them name by name. -/
theorem prefix_of_spell_prefix {names more : List (List Char)} (hn : ∀ n ∈ names, '/' ∉ n)
    (hm : ∀ n ∈ more, '/' ∉ n) (h : spell names ++ ['/'] <+: spell more) :
    ∃ rest, rest ≠ [] ∧ more = names ++ rest := by
  obtain ⟨tail, htail⟩ := h
  have hsplit := congrArg (List.splitOn '/') htail
  rw [List.append_assoc, List.singleton_append, List.splitOn_append_cons_self, splitOn_spell hn,
    splitOn_spell hm, List.cons_append] at hsplit
  exact ⟨tail.splitOn '/', List.splitOn_ne_nil _ _, (List.cons.inj hsplit).2.symm⟩

namespace Table

variable {names more front rest : List String}

/-- No path lies under the root itself, as far as the prefix match goes. -/
theorem not_isUnder_root (h : ∀ n ∈ names, Ordinary n) : isUnder "/" (rootText names) = false := by
  cases names with
  | nil => decide +kernel
  | cons name names =>
    have hname := h name (by simp)
    cases hchars : name.toList with
    | nil => exact absurd (String.toList_eq_nil_iff.mp hchars) hname.1
    | cons c cs =>
      have hc : c.toLower ≠ '/' := by
        rw [Ne, toLower_eq_slash]
        rintro rfl
        exact hname.2.2.2 (by simp [hchars])
      rw [isUnder, toList_rootText (by simp)]
      simp [hchars, List.isPrefixOf, Ne.symm hc]

/-- A path lies under another when its first names are those of the other, up to case, and more
names follow. -/
theorem isUnder_iff (hn : ∀ n ∈ names, Ordinary n) (hm : ∀ n ∈ more, Ordinary n)
    (hne : names ≠ []) :
    isUnder (rootText names) (rootText more) = true ↔
      ∃ front rest, rest ≠ [] ∧ more = front ++ rest ∧ lowered front = lowered names := by
  have hslash : Char.toLower '/' = '/' := by decide
  by_cases hme : more = []
  · subst hme
    refine iff_of_false ?_ ?_
    · intro hunder
      rw [isUnder, List.isPrefixOf_iff_prefix, toList_rootText hne] at hunder
      have hlen := hunder.length_le
      cases names with
      | nil => exact hne rfl
      | cons name names => simp [rootText_nil] at hlen
    · rintro ⟨front, rest, hrest, happ, -⟩
      exact hrest (List.append_eq_nil_iff.mp happ.symm).2
  rw [isUnder, toList_rootText hne, toList_rootText hme, List.isPrefixOf_iff_prefix,
    List.map_append, map_toLower_spell, map_toLower_spell, List.map_singleton, hslash]
  constructor
  · intro hpre
    obtain ⟨rest, hrest, happ⟩ := prefix_of_spell_prefix (slash_not_mem_lowered hn)
      (slash_not_mem_lowered hm) hpre
    obtain ⟨front, tail, hsplit, hfront, htail⟩ := List.map_eq_append_iff.mp happ
    refine ⟨front, tail, ?_, hsplit, hfront⟩
    rintro rfl
    exact hrest htail.symm
  · rintro ⟨front, rest, hrest, rfl, hlow⟩
    cases rest with
    | nil => exact absurd rfl hrest
    | cons name rest =>
      rw [lowered_append, hlow, spell_append]
      exact ⟨(name.toList.map Char.toLower) ++ spell (lowered rest), by simp [lowered]⟩

/-- What lies under a path lies under whatever that lies under. -/
theorem isUnder_of_isUnder_append (hn : ∀ n ∈ names, Ordinary n)
    (hm : ∀ n ∈ front ++ rest, Ordinary n)
    (h : isUnder (rootText names) (rootText front) = true) :
    isUnder (rootText names) (rootText (front ++ rest)) = true := by
  have hf : ∀ n ∈ front, Ordinary n := fun n hn => hm n (by simp [hn])
  by_cases hne : names = []
  · subst hne
    rw [rootText_nil, not_isUnder_root hf] at h
    cases h
  obtain ⟨init, tail, htail, rfl, hlow⟩ := (isUnder_iff hn hf hne).mp h
  exact (isUnder_iff hn hm hne).mpr ⟨init, tail ++ rest, by simp [htail], by simp, hlow⟩

theorem length_spell_of_lowered (h : lowered front = lowered names) :
    (spell (front.map String.toList)).length = (spell (names.map String.toList)).length := by
  rw [← List.length_map Char.toLower, map_toLower_spell, h, ← map_toLower_spell, List.length_map]

/-- A path below the source, continued from the destination. -/
theorem rebase_rootText (hn : names ≠ []) (hm : more ≠ []) (hlow : lowered front = lowered names) :
    rebase (rootText names) (rootText more) (rootText (front ++ rest)) =
      rootText (more ++ rest) := by
  have hfront : front ≠ [] := by
    rintro rfl
    exact hn (List.map_eq_nil_iff.mp hlow.symm)
  apply String.toList_inj.mp
  rw [rebase, String.toList_append, String.toList_ofList, toList_rootText hm,
    toList_rootText (by simp [hfront]), toList_rootText (by simp [hm]), ← String.length_toList,
    toList_rootText hn, List.map_append, List.map_append, spell_append, spell_append,
    ← length_spell_of_lowered hlow, List.drop_left]

/-- More names lie under those before them. -/
theorem isUnder_append (hm : ∀ n ∈ front ++ rest, Ordinary n) (hf : front ≠ []) (hr : rest ≠ []) :
    isUnder (rootText front) (rootText (front ++ rest)) = true :=
  (isUnder_iff (fun n hn => hm n (by simp [hn])) hm hf).mpr ⟨front, rest, hr, rfl, rfl⟩

/-! ## Removing -/

/-- The rows that removing or moving the entry at `key` takes along: its own, and with a directory
all those under it. -/
def Swept (key : String) (kind : Kind) (row : Row) : Prop :=
  row.path = key ∨ (kind = .directory ∧ isUnder key row.path = true)

instance (key : String) (kind : Kind) (row : Row) : Decidable (Swept key kind row) := by
  unfold Swept; infer_instance

variable {t t' : Table} {row : Row} {path : String}

theorem rows_of_remove {recursive : Bool} (h : t.remove row recursive = .ok t') :
    t'.rows = t.rows.filter (fun r => ¬Swept row.path row.kind r) := by
  unfold remove at h
  obtain ⟨rows, hall, h⟩ := bind_eq_ok.mp h
  rw [rows_of_all hall]
  dsimp only at h
  by_cases hk : row.kind = .directory
  · rw [if_neg (by simpa using hk)] at h
    have hrest : t'.rows = (rows.filter (·.path != row.path)).filter
        fun r => !isUnder row.path r.path := by
      obtain ⟨children, -, h⟩ := bind_eq_ok.mp h
      split at h
      · cases h
      · cases h
        rfl
    rw [hrest, List.filter_filter]
    refine List.filter_congr fun r _ => ?_
    by_cases hpath : r.path = row.path <;> simp [Swept, hk, hpath]
  · rw [if_pos hk] at h
    cases h
    refine List.filter_congr fun r _ => ?_
    by_cases hpath : r.path = row.path <;> simp [Swept, hk, hpath]

theorem mem_remove_iff {r : Row} {recursive : Bool} (h : t.remove row recursive = .ok t') :
    r ∈ t'.rows ↔ r ∈ t.rows ∧ ¬Swept row.path row.kind r := by
  rw [rows_of_remove h, List.mem_filter, decide_eq_true_eq]

/-- Deleting removes a row that is there, or changes nothing. -/
theorem rows_of_delete {recursive found : Bool} (h : t.delete path recursive = .ok (found, t')) :
    (found = false ∧ t' = t) ∨
    (found = true ∧ ∃ key row, Table.key path = .ok key ∧ t.find key = .ok (some row) ∧
      t.remove row recursive = .ok t') := by
  unfold delete at h
  obtain ⟨key, hkey, h⟩ := bind_eq_ok.mp h
  obtain ⟨row?, hfind, h⟩ := bind_eq_ok.mp h
  cases row? with
  | none => cases h; exact .inl ⟨rfl, rfl⟩
  | some row =>
    obtain ⟨rest, hremove, h⟩ := bind_eq_ok.mp h
    cases h
    exact .inr ⟨rfl, key, row, hkey, hfind, hremove⟩

/-! ## Moving -/

/-- What a move from `src` to `dest` does to one row. -/
def Moves (source : Row) (src dest : String) (r r' : Row) : Prop :=
  if r.path = src then
    ∃ parent name, Table.split dest = .ok (parent, name) ∧
      r' = { source with path := dest, parent, name }
  else if source.kind = .directory ∧ isUnder src r.path = true then
    ∃ parent name, Table.split (rebase src dest r.path) = .ok (parent, name) ∧
      r' = { r with path := rebase src dest r.path, parent, name }
  else r' = r

/-- Nothing is stored at the source any more, unless something was moved there. -/
theorem Moves.path_ne {source r r' : Row} {src dest : String} (h : Moves source src dest r r')
    (hne : dest ≠ src) (hunder : source.kind = .directory → isUnder src r.path = true →
      rebase src dest r.path ≠ src) : r'.path ≠ src := by
  unfold Moves at h
  split at h
  · obtain ⟨parent, name, -, rfl⟩ := h
    exact hne
  split at h
  · rename_i hin
    obtain ⟨parent, name, -, rfl⟩ := h
    exact hunder hin.1 hin.2
  · rename_i hpath _
    rw [h]
    exact hpath

theorem moveRow_eq_ok {r r' : Row} (h : moveRow r path = .ok r') :
    ∃ parent name, Table.split path = .ok (parent, name) ∧ r' = { r with path, parent, name } := by
  obtain ⟨⟨parent, name⟩, hsplit, h⟩ := bind_eq_ok.mp h
  cases h
  exact ⟨parent, name, hsplit, rfl⟩

theorem exists_left_of_forall₂ {α β : Type} {R : α → β → Prop} {xs : List α} {ys : List β}
    (h : List.Forall₂ R xs ys) {y : β} (hy : y ∈ ys) : ∃ x ∈ xs, R x y := by
  induction h with
  | nil => cases hy
  | cons hxy _ ih =>
    rcases List.mem_cons.mp hy with rfl | hy
    · exact ⟨_, List.mem_cons_self, hxy⟩
    · obtain ⟨x, hx, hR⟩ := ih hy
      exact ⟨x, List.mem_cons_of_mem _ hx, hR⟩

theorem exists_right_of_forall₂ {α β : Type} {R : α → β → Prop} {xs : List α} {ys : List β}
    (h : List.Forall₂ R xs ys) {x : α} (hx : x ∈ xs) : ∃ y ∈ ys, R x y :=
  exists_left_of_forall₂ (R := fun y x => R x y) h.flip hx

/-- A row with its old path, moved along if it lies under the source. -/
def follow (source : Row) (src dest : String) (r : Row) : Except Error (String × Row) := do
  if source.kind = .directory ∧ r.path ≠ src ∧ isUnder src r.path then
    return (r.path, ← moveRow r (rebase src dest r.path))
  else return (r.path, r)

/-- The last part of a move, once nothing is left at the destination. -/
def moveRows (t : Table) (source : Row) (src dest : String) : Except Error Table := do
  if src = dest then return t
  let rows ← (← t.all).mapM (follow source src dest)
  let moved ← moveRow source dest
  if !rows.any (·.1 == src) then throw .rowGone
  let rows := rows.map fun (old, r) => if old = src then moved else r
  if (rows.map Row.path).Nodup then return ⟨some rows⟩ else throw .duplicatePath

/-- The table in which the rows of a move are moved: the entry under the key of the destination is
taken away, if there is one. -/
inductive Clears (t : Table) (dest : String) (overwrite : Bool) (cleared : Table) : Prop
  | free : t.find dest = .ok none → cleared = t → Clears t dest overwrite cleared
  | removed {old : Row} : t.find dest = .ok (some old) → overwrite = true →
      t.remove old false = .ok cleared → Clears t dest overwrite cleared

theorem Clears.mem {dest : String} {overwrite : Bool} {cleared : Table}
    (h : t.Clears dest overwrite cleared) {row : Row} (hrow : row ∈ cleared.rows) :
    row ∈ t.rows := by
  cases h with
  | free _ heq => rwa [← heq]
  | removed _ _ hremove => exact ((mem_remove_iff hremove).mp hrow).1

/-- A move first takes an old entry at the destination away. -/
theorem moveRows_of_move {src dest : String} {overwrite : Bool}
    (h : t.move src dest overwrite = .ok t') :
    ∃ S D source cleared, Table.key src = .ok S ∧ Table.key dest = .ok D ∧
      t.find S = .ok (some source) ∧ t.Clears D overwrite cleared ∧
      cleared.moveRows source S D = .ok t' := by
  unfold move at h
  obtain ⟨S, hS, h⟩ := bind_eq_ok.mp h
  obtain ⟨D, hD, h⟩ := bind_eq_ok.mp h
  obtain ⟨source?, hsource, h⟩ := bind_eq_ok.mp h
  cases source? with
  | none => cases h
  | some source =>
  obtain ⟨old?, hdest, h⟩ := bind_eq_ok.mp h
  cases old? with
  | none => exact ⟨S, D, source, t, hS, hD, hsource, .free hdest rfl, h⟩
  | some old =>
    dsimp only at h
    split at h
    · rename_i hoverwrite
      obtain ⟨cleared, hremove, h⟩ := bind_eq_ok.mp h
      exact ⟨S, D, source, cleared, hS, hD, hsource, .removed hdest hoverwrite hremove, h⟩
    · cases h

theorem moves_of_follow {source r : Row} {src dest parent name : String} {pair : String × Row}
    (hsplit : Table.split dest = .ok (parent, name)) (h : follow source src dest r = .ok pair) :
    pair.1 = r.path ∧ Moves source src dest r
      (if pair.1 = src then { source with path := dest, parent, name } else pair.2) := by
  unfold follow at h
  by_cases hpath : r.path = src
  · rw [if_neg fun hc => hc.2.1 hpath] at h
    cases h
    refine ⟨rfl, ?_⟩
    rw [Moves, if_pos hpath, if_pos hpath]
    exact ⟨parent, name, hsplit, rfl⟩
  by_cases hsweep : source.kind = .directory ∧ isUnder src r.path = true
  · rw [if_pos ⟨hsweep.1, hpath, hsweep.2⟩] at h
    obtain ⟨r', hrow, h⟩ := bind_eq_ok.mp h
    cases h
    refine ⟨rfl, ?_⟩
    rw [Moves, if_neg hpath, if_neg hpath, if_pos hsweep]
    exact moveRow_eq_ok hrow
  · rw [if_neg fun hc => hsweep ⟨hc.1, hc.2.2⟩] at h
    cases h
    refine ⟨rfl, ?_⟩
    rw [Moves, if_neg hpath, if_neg hpath, if_neg hsweep]

/-- A move changes the rows it sweeps; onto itself, it changes nothing more. -/
theorem moves_of_moveRows {source : Row} {src dest : String}
    (h : t.moveRows source src dest = .ok t') :
    src = dest ∧ t' = t ∨
      src ≠ dest ∧ List.Forall₂ (Moves source src dest) t.rows t'.rows ∧
        (∃ r ∈ t.rows, r.path = src) ∧ (t'.rows.map Row.path).Nodup := by
  unfold moveRows at h
  by_cases heq : src = dest
  · rw [if_pos heq] at h
    cases h
    exact .inl ⟨heq, rfl⟩
  rw [if_neg heq] at h
  obtain ⟨rows, hall, h⟩ := bind_eq_ok.mp h
  obtain ⟨pairs, hpairs, h⟩ := bind_eq_ok.mp h
  obtain ⟨moved, hmoved, h⟩ := bind_eq_ok.mp h
  split at h
  · cases h
  rename_i hany
  dsimp only at h
  split at h
  swap
  · cases h
  rename_i hnodup
  cases h
  rw [rows_of_all hall]
  obtain ⟨parent, name, hsplit, rfl⟩ := moveRow_eq_ok hmoved
  have hstep := forall₂_of_mapM hpairs
  refine .inr ⟨heq, ?_, ?_, hnodup⟩
  · refine List.forall₂_map_right_iff.mpr (hstep.imp fun r pair hpair => ?_)
    exact (moves_of_follow hsplit hpair).2
  · obtain ⟨pair, hmem, hkey⟩ : ∃ pair ∈ pairs, pair.1 = src := by simpa using hany
    obtain ⟨r, hr, hpair⟩ := exists_left_of_forall₂ hstep hmem
    exact ⟨r, hr, (moves_of_follow hsplit hpair).1.symm.trans hkey⟩

end Table

end MountSpace
