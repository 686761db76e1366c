import MountSpace.Proofs.Path.Lasting
import MountSpace.Proofs.Store.Open

/-!
# New links

A store keeps the text of a new link as it is given, and reports as the target what the text is
read as.  Nothing else that it reports changes, and the directory of the link is listed as before,
with the link among its entries.

## Main definitions

* `Table.Grows` — what is found under any key is still found there.

Main statements: `Disk.Homed.status_of_makeLink`, `Disk.Homed.list_of_makeLink`,
`Table.status_of_makeLink`, `Table.list_of_makeLink`.
-/

namespace MountSpace

open MountSpace.Path

/-! ## Going through lists -/

section Except

variable {ε α β : Type} {f : α → Except ε β} {xs : List α} {ys : List β}

theorem mapM_eq_ok_of_forall (h : ∀ x ∈ xs, ∃ y, f x = .ok y) : ∃ ys, xs.mapM f = .ok ys := by
  induction xs with
  | nil => exact ⟨[], rfl⟩
  | cons x xs ih =>
    obtain ⟨y, hy⟩ := h x (by simp)
    obtain ⟨ys, hys⟩ := ih fun z hz => h z (by simp [hz])
    exact ⟨y :: ys, by rw [List.mapM_cons, hy, hys]; rfl⟩

theorem forall_of_mapM (h : xs.mapM f = .ok ys) {x : α} (hx : x ∈ xs) : ∃ y ∈ ys, f x = .ok y := by
  have hall := forall₂_of_mapM h
  clear h
  induction hall with
  | nil => cases hx
  | cons hfirst _ ih =>
    rcases List.mem_cons.mp hx with rfl | hx
    · exact ⟨_, by simp, hfirst⟩
    · obtain ⟨y, hy, hfy⟩ := ih hx
      exact ⟨y, by simp [hy], hfy⟩

theorem exists_of_mem_mapM (h : xs.mapM f = .ok ys) {y : β} (hy : y ∈ ys) :
    ∃ x ∈ xs, f x = .ok y := by
  have hall := forall₂_of_mapM h
  clear h
  induction hall with
  | nil => cases hy
  | cons hfirst _ ih =>
    rcases List.mem_cons.mp hy with rfl | hy
    · exact ⟨_, by simp, hfirst⟩
    · obtain ⟨x, hx, hfx⟩ := ih hy
      exact ⟨x, by simp [hx], hfx⟩

/-- What is read off the results is what is read off the items, if each result has it from its
item. -/
theorem map_eq_of_mapM {γ : Type} {g : β → γ} {k : α → γ} (h : xs.mapM f = .ok ys)
    (hfg : ∀ x ∈ xs, ∀ y, f x = .ok y → g y = k x) : ys.map g = xs.map k := by
  have hall := forall₂_of_mapM h
  clear h
  induction hall with
  | nil => rfl
  | cons hfirst _ ih =>
    rw [List.map_cons, List.map_cons, hfg _ (by simp) _ hfirst,
      ih fun x hx => hfg x (by simp [hx])]

end Except

theorem mem_of_mem_setEntry {κ ν : Type} [BEq κ] {key k : κ} {value v : ν} {l : List (κ × ν)}
    (h : (k, v) ∈ setEntry key value l) : (k, v) ∈ l ∨ k = key ∧ v = value := by
  induction l with
  | nil => exact .inr (by simpa [setEntry] using h)
  | cons e l ih =>
    unfold setEntry at h
    split at h
    · rcases List.mem_cons.mp h with h | h
      · exact .inr (by simpa using h)
      · exact .inl (List.mem_cons_of_mem _ h)
    · rcases List.mem_cons.mp h with h | h
      · exact .inl (h ▸ List.mem_cons_self)
      · exact (ih h).imp (List.mem_cons_of_mem _) id

/-! ## Trees -/

namespace HostTree

variable {t t' : HostTree} {names : List String} {place : Place} {base text : String}
variable {now : Instant} {entry : HostEntry}

/-- The tree `t'` is `t` with one more entry, at the end of a way below a base. -/
structure Adds (t t' : HostTree) (base : String) (names : List String) (node : Node) : Prop where
  /-- The entry is not the base. -/
  ne_nil : names ≠ []
  /-- Directories lead to its place. -/
  isOpen : t'.Open base names
  /-- It stands there now. -/
  node_eq : t'.node? (base :: names) = some node
  /-- What stood anywhere else still stands there. -/
  grows : Grows t t'
  /-- Everything else stood there before. -/
  old : ∀ place entry, (place, entry) ∈ t'.entries →
    (∃ was, (place, was) ∈ t.entries ∧ entry.node = was.node) ∨
      place = base :: names ∧ entry.node = node

/-- A new entry stands at the end of an open way, where nothing stood. -/
theorem Base.place_of_create (hb : t.Base base) (hs : t.Straight [base] names)
    (ho : ∀ n ∈ names, Ordinary n) {node : Node}
    (h : t.create now (base :: names) node = .ok t') :
    t.Open base names ∧ t.find? (base :: names) = none ∧
      ∃ dir, t' = (t.put (base :: names) (node.fresh now)).touch now dir := by
  obtain ⟨place, hv, rfl⟩ := create_eq_ok h
  obtain ⟨dir, name, hh, -, hname, hfree, rfl⟩ := vacancy_eq_ok.mp hv
  rw [hb.append_of_holder hs ho hh] at hfree ⊢
  exact ⟨hb.open_of_holder hs ho hh hname, hfree, _, rfl⟩

theorem Base.adds_of_create (hb : t.Base base) (hs : t.Straight [base] names)
    (ho : ∀ n ∈ names, Ordinary n) {node : Node}
    (h : t.create now (base :: names) node = .ok t') : Adds t t' base names node := by
  have hgrows := grows_of_create h
  obtain ⟨hopen, hfree, dir, ht'⟩ := hb.place_of_create hs ho h
  refine ⟨?_, hopen.of_stay hgrows.stay, ?_, hgrows, ?_⟩
  · rintro rfl
    have hnode := hb.node
    rw [node?, hfree] at hnode
    cases hnode
  · rw [ht', node?_touch, node?_put_self]
    rfl
  · intro place entry he
    rw [ht'] at he
    obtain ⟨⟨found, was⟩, hwas, heq⟩ := List.mem_map.mp he
    have hkey : found = place ∧ entry.node = was.node := by
      split at heq <;> cases heq <;> exact ⟨rfl, rfl⟩
    obtain ⟨rfl, hnode⟩ := hkey
    rcases mem_of_mem_setEntry hwas with hwas | ⟨rfl, rfl⟩
    · exact .inl ⟨was, hwas, hnode⟩
    · exact .inr ⟨rfl, hnode⟩

/-- What a place holds stands at the place and a name. -/
theorem mem_childrenOf {name : String} {entry : HostEntry} :
    (name, entry) ∈ t.childrenOf place ↔ (place ++ [name], entry) ∈ t.entries := by
  unfold childrenOf
  rw [List.mem_filterMap]
  constructor
  · rintro ⟨⟨other, found⟩, hmem, hname⟩
    dsimp only at hname
    split at hname
    · split at hname
      · rename_i hplace
        cases hname
        rwa [hplace] at hmem
      · cases hname
    · cases hname
  · intro hmem
    refine ⟨_, hmem, ?_⟩
    dsimp only
    rw [List.getLast?_concat]
    simp

/-- Two entries of one name would stand at one place. -/
theorem nodup_childrenOf (h : (t.entries.map Prod.fst).Nodup) (place : Place) :
    ((t.childrenOf place).map Prod.fst).Nodup := by
  refine List.Pairwise.map _ (R := fun e e' => e.1 ≠ e'.1) (fun _ _ hne => hne) ?_
  refine (List.pairwise_map.mp h).filterMap _ fun e e' hne b hb b' hb' heq => hne ?_
  split at hb
  swap
  · cases hb
  split at hb
  swap
  · cases hb
  rename_i hplace
  split at hb'
  swap
  · cases hb'
  split at hb'
  swap
  · cases hb'
  rename_i hplace'
  cases hb
  cases hb'
  rw [hplace, hplace']
  exact congrArg (fun name => place ++ [name]) heq

/-- Each entry at a place can be looked up on the way to the place. -/
def Reached (t : HostTree) (way : List String) (place : Place) : Prop :=
  ∀ e ∈ t.childrenOf place,
    t.limits.refusesWay (way ++ [e.1]) = false ∧ t.limits.refusesName e.1 = false

/-- A directory is listed if its entries can be looked up. -/
theorem list_of_placeOf {way : List String} (hp : t.placeOf true way = .ok place)
    (hdir : t.node? place = some .directory) :
    (t.Reached way place → t.list way = .ok (t.childrenOf place)) ∧
      (¬t.Reached way place → t.list way = .error .nameTooLong) := by
  unfold list Reached
  rw [hp]
  rw [node?] at hdir
  simp only [bind, Except.bind, hdir]
  refine ⟨fun hall => if_neg ?_, fun hall => if_pos ?_⟩
  · simpa using hall
  · simpa only [List.any_eq_true, Bool.or_eq_true, not_forall, not_and_or, exists_prop,
      Bool.not_eq_false] using hall

/-- What could be looked up can still be after an entry is added, which can be looked up too. -/
theorem Adds.reached_of {node : Node} (h : Adds t t' base names node) {dirs : List String}
    (hr : t.Reached (base :: dirs) (base :: dirs)) : t'.Reached (base :: dirs) (base :: dirs) := by
  rintro ⟨name, entry⟩ he
  rw [h.grows.limits]
  rcases h.old _ _ (mem_childrenOf.mp he) with ⟨was, hwas, -⟩ | ⟨hplace, -⟩
  · exact hr (name, was) (mem_childrenOf.mpr hwas)
  · have hnames : dirs ++ [name] = names := (List.cons.inj hplace).2
    dsimp only
    rw [hplace, ← h.grows.limits]
    exact ⟨h.isOpen.way, h.isOpen.short name (by simp [← hnames])⟩

end HostTree

/-! ## Disks -/

namespace Disk

variable {d d' : Disk} {now : Instant} {path text : String} {names dirs : List String}

theorem Homed.adds_of_makeLink (h : d.Homed) (hn : ∀ n ∈ names, Ordinary n)
    (hm : d.makeLink now (rootText names) text = .ok d') :
    HostTree.Adds d.tree d'.tree home (settle names) (.link text) := by
  obtain ⟨way, hway, hcreate⟩ := makeLink_eq_ok hm
  obtain ⟨rfl, hs⟩ := h.way_eq hn hway
  exact HostTree.Base.adds_of_create h hs (settle_ordinary hn) hcreate

/-- **A new link is reported with what its text is read as**, and not at all if the text cannot be
read. -/
theorem Homed.status_of_makeLink (h : d.Homed) (hn : ∀ n ∈ names, Ordinary n)
    (hm : d.makeLink now (rootText names) text = .ok d') :
    (∀ target, Path.read text = .ok target → ∃ st,
      d'.status (rootText names) = .ok (some st) ∧ st.kind = .link ∧ st.target = some target) ∧
    ∀ found, d'.status (rootText names) = .ok found →
      ∃ st target, found = some st ∧ st.target = some target ∧ Path.read text = .ok target := by
  have hadds := h.adds_of_makeLink hn hm
  obtain ⟨way, hway, -⟩ := makeLink_eq_ok hm
  obtain ⟨p, hread, -⟩ := way_eq_ok.mp hway
  obtain rfl := eq_of_read_rootText hn hread
  obtain ⟨entry, hfind, hnode⟩ := HostTree.node?_eq_some.mp hadds.node_eq
  have hstatus := status_of_open (h.of_stay hadds.grows.stay) hread (settle_ordinary hn)
    hadds.isOpen
  dsimp only at hstatus
  rw [hfind] at hstatus
  dsimp only at hstatus
  rw [hstatus]
  constructor
  · intro target htarget
    rw [(report_link hnode hread).mpr ⟨target, htarget, rfl⟩]
    exact ⟨_, rfl, rfl, rfl⟩
  · intro found hfound
    obtain ⟨st, hreport, rfl⟩ := map_eq_ok.mp hfound
    obtain ⟨target, htarget, rfl⟩ := (report_link hnode hread).mp hreport
    exact ⟨_, target, rfl, rfl, htarget⟩

/-- A disk lists the directory at the end of an open way if its entries can be looked up. -/
theorem list_of_open (h : d.Homed) (hn : ∀ n ∈ dirs, Ordinary n) {p : Path}
    (hread : Path.read (rootText dirs) = .ok p) (hopen : d.tree.Open home (settle dirs))
    (hdir : d.tree.node? (home :: settle dirs) = some .directory) :
    (d.tree.Reached (home :: settle dirs) (home :: settle dirs) → d.list (rootText dirs) = (do
        let reports ← (d.tree.childrenOf (home :: settle dirs)).mapM
          fun (name, entry) => report (p.child [name]).localText entry
        return reports.mergeSort fun a b => a.path.name ≤ b.path.name)) ∧
      ∀ entries, d.list (rootText dirs) = .ok entries →
        d.tree.Reached (home :: settle dirs) (home :: settle dirs) := by
  obtain ⟨hfound, hfail⟩ := HostTree.list_of_placeOf
    (hopen.placeOf_follow_eq h (settle_ordinary hn) (by simp [hdir])) hdir
  obtain rfl := eq_of_read_rootText hn hread
  have hway : d.way (rootText dirs) = .ok (home :: settle dirs) :=
    way_of_open h hread (settle_ordinary hn) hopen
  unfold Disk.list
  refine ⟨fun hreached => ?_, fun entries hl => ?_⟩
  · simp only [hway, hread, hfound hreached, bind, Except.bind, fromHost, Except.mapError]
  · by_contra hreached
    simp only [hway, hread, hfail hreached, bind, Except.bind, fromHost, Except.mapError] at hl
    cases hl

/-- The text of a new entry's path when it is reached from its directory. -/
theorem child_localText (ho : ∀ n ∈ names, Ordinary n) {name : String}
    (h : home :: dirs ++ [name] = home :: names) :
    ((⟨{}, dirs, true⟩ : Path).child [name]).localText = rootText names := by
  have hnames : dirs ++ [name] = names := (List.cons.inj h).2
  rw [Path.child]
  dsimp only
  rw [hnames, collapse_ordinary ho]
  rfl

/-- **A directory that could be listed can still be listed** after a link was made whose text can
be read.  Its entries are reported as before. -/
theorem Homed.list_of_makeLink (h : d.Homed) (hn : ∀ n ∈ names, Ordinary n)
    (hd : ∀ n ∈ dirs, Ordinary n) (hm : d.makeLink now (rootText names) text = .ok d')
    {target : Path} (htext : Path.read text = .ok target) {st : Status}
    (hs : d.status (rootText dirs) = .ok (some st)) (hk : st.kind = .directory)
    {entries : List Status} (hl : d.list (rootText dirs) = .ok entries) :
    ∃ entries', d'.list (rootText dirs) = .ok entries' ∧ ∀ e' ∈ entries',
      (∃ e ∈ entries, e.SameEntry e' ∧ e'.path = e.path) ∨
        e'.path = ⟨{}, settle (settle names), true⟩ := by
  have hadds := h.adds_of_makeLink hn hm
  obtain ⟨way, hway, -⟩ := makeLink_eq_ok hm
  obtain ⟨q, hq, -⟩ := way_eq_ok.mp hway
  have hlink := read_settled hn hq
  obtain rfl := eq_of_read_rootText hn hq
  obtain ⟨p, hread⟩ := read_of_status hs
  obtain ⟨hopen, entry, hfind, hreport⟩ := h.open_of_status hd hs
  have hdir : d.tree.node? (home :: settle dirs) = some .directory := by
    rw [HostTree.node?, hfind, Option.map_some, directory_of_report hreport hk]
  obtain ⟨hlist, hreached⟩ := list_of_open h hd hread hopen hdir
  obtain ⟨hlist', -⟩ := list_of_open (h.of_stay hadds.grows.stay) hd hread
    (hopen.of_stay hadds.grows.stay) (hadds.grows.node _ _ hdir)
  obtain rfl := eq_of_read_rootText hd hread
  replace hlist := hlist (hreached entries hl)
  replace hlist' := hlist' (hadds.reached_of (hreached entries hl))
  rw [hl] at hlist
  obtain ⟨reports, hreports, hsort⟩ := bind_eq_ok.mp hlist.symm
  obtain rfl := Except.ok.inj hsort
  -- Each entry is an old one, or the link.
  have heach : ∀ e ∈ d'.tree.childrenOf (home :: settle dirs), ∃ e',
      report ((⟨{}, settle dirs, true⟩ : Path).child [e.1]).localText e.2 = .ok e' ∧
        ((∃ e ∈ reports, e.SameEntry e' ∧ e'.path = e.path) ∨
          e'.path = ⟨{}, settle (settle names), true⟩) := by
    rintro ⟨name, entry'⟩ he
    rcases hadds.old _ _ (HostTree.mem_childrenOf.mp he) with ⟨was, hwas, hnode⟩ | ⟨hplace, hnode⟩
    · obtain ⟨e, hein, hold⟩ := forall_of_mapM hreports (HostTree.mem_childrenOf.mpr hwas)
      obtain ⟨e', hnew, hsame, hsamePath⟩ := report_congr hnode hold (read_of_report hold)
      exact ⟨e', hnew, .inl ⟨e, hein, hsame, hsamePath⟩⟩
    · dsimp only
      rw [child_localText (settle_ordinary hn) hplace]
      exact ⟨_, (report_link hnode hlink).mpr ⟨target, htext, rfl⟩, .inr rfl⟩
  obtain ⟨reports', hreports'⟩ := mapM_eq_ok_of_forall fun e he =>
    (heach e he).imp fun _ h => h.1
  refine ⟨reports'.mergeSort fun a b => a.path.name ≤ b.path.name, ?_, fun e' he' => ?_⟩
  · rw [hlist', hreports']
    rfl
  · obtain ⟨e, he, hreport'⟩ := exists_of_mem_mapM hreports' (List.mem_mergeSort.mp he')
    obtain ⟨e'', hreport'', hcases⟩ := heach e he
    obtain rfl : e' = e'' := Except.ok.inj (hreport'.symm.trans hreport'')
    refine hcases.imp_left fun hold => ?_
    obtain ⟨e, hin, hrest⟩ := hold
    exact ⟨e, List.mem_mergeSort.mpr hin, hrest⟩

end Disk

/-! ## Tables -/

namespace Table

variable {t t' : Table} {now : Instant} {key path text : String} {names dirs : List String}
variable {kind : Kind} {content : Option Bytes} {target : Option String} {row : Row}

/-- What is found under any key is still found there. -/
def Grows (t t' : Table) : Prop :=
  ∀ key row, t.find key = .ok (some row) → t'.find key = .ok (some row)

/-- A row is added behind the others. -/
theorem insert_eq_ok (h : t.insert now key kind content target = .ok t') :
    ∃ rows row, t.all = .ok rows ∧ t' = ⟨some (rows ++ [row])⟩ ∧ t.find key = .ok none ∧
      row.path = key ∧ row.kind = kind ∧ row.target = target := by
  have hnone := find_of_insert h
  unfold insert at h
  obtain ⟨found, hfind, h⟩ := bind_eq_ok.mp h
  obtain rfl : none = found := Except.ok.inj (hnone.symm.trans hfind)
  obtain ⟨⟨parent, name⟩, -, h⟩ := bind_eq_ok.mp h
  obtain ⟨rows, hall, h⟩ := bind_eq_ok.mp h
  cases h
  exact ⟨rows, _, hall, rfl, hnone, rfl, rfl, rfl⟩

theorem find_some {rows : List Row} : find ⟨some rows⟩ key = .ok (rows.find? (·.path == key)) := rfl

theorem grows_of_insert (h : t.insert now key kind content target = .ok t') : Grows t t' := by
  obtain ⟨rows, row, hall, rfl, -⟩ := insert_eq_ok h
  intro other found hfind
  have hfound : rows.find? (·.path == other) = some found := by
    rw [← rows_of_all hall]
    exact find_eq_ok hfind
  rw [find_some, List.find?_append, hfound]
  rfl

/-- The new row is found under its key. -/
theorem find_of_insert_self (h : t.insert now key kind content target = .ok t') :
    ∃ row, t'.find key = .ok (some row) ∧ row.path = key ∧ row.kind = kind ∧
      row.target = target := by
  obtain ⟨rows, row, hall, rfl, hnone, hpath, hk, htarget⟩ := insert_eq_ok h
  have hfree : rows.find? (·.path == key) = none := by
    rw [← rows_of_all hall]
    exact find_eq_ok hnone
  refine ⟨row, ?_, hpath, hk, htarget⟩
  rw [find_some, List.find?_append, hfree]
  simp [hpath]

theorem status_of_grows (hg : Grows t t') {st : Status} (h : t.status path = .ok (some st)) :
    t'.status path = .ok (some st) := by
  obtain ⟨key, hkey, ⟨rfl, hroot⟩ | ⟨-, -, hnone⟩ | ⟨hne, row, status, hfind, hstatus, hst⟩⟩ :=
    status_cases h
  · rw [hroot, status_of_root hkey]
  · cases hnone
  · rw [status_of_find hkey hne (hg key row hfind), Option.elim_some, hstatus, hst]
    rfl

theorem status_link (hk : row.kind = .link) (htarget : row.target = some text) (hne : text ≠ "")
    {p : Path} (hread : Path.read row.path = .ok p) {st : Status} :
    row.status = .ok st ↔ ∃ target, Path.read text = .ok target ∧
      st = ⟨p, .link, 0, some (.ofCivil row.accessed), some (.ofCivil row.modified),
        some target⟩ := by
  rw [Row.status_eq_ok, Row.destination_of_text htarget hne, hread, hk]
  cases htext : Path.read text <;> simp [Functor.map, Except.map]

theorem link_of_makeLink (hn : ∀ n ∈ names, Ordinary n)
    (hm : t.makeLink now (rootText names) text = .ok t') :
    Path.read (rootText names) = .ok ⟨{}, settle names, true⟩ ∧
      t.insert now (rootText (settle names)) .link none (some text) = .ok t' := by
  obtain ⟨key, hkey, hinsert⟩ := insert_of_makeLink hm
  obtain ⟨p, hread, rfl⟩ := map_eq_ok.mp hkey
  obtain rfl := eq_of_read_rootText hn hread
  exact ⟨hread, hinsert⟩

/-- **A new link is reported with what its text is read as**, and not at all if the text cannot be
read. -/
theorem status_of_makeLink (hn : ∀ n ∈ names, Ordinary n) (hroot : settle names ≠ [])
    (hne : text ≠ "") (hm : t.makeLink now (rootText names) text = .ok t') :
    (∀ target, Path.read text = .ok target → ∃ st,
      t'.status (rootText names) = .ok (some st) ∧ st.kind = .link ∧ st.target = some target) ∧
    ∀ found, t'.status (rootText names) = .ok found →
      ∃ st target, found = some st ∧ st.target = some target ∧ Path.read text = .ok target := by
  obtain ⟨hread, hinsert⟩ := link_of_makeLink hn hm
  obtain ⟨row, hfind, hpath, hk, htarget⟩ := find_of_insert_self hinsert
  have hstatus : t'.status (rootText names) = some <$> row.status := by
    have hkey : Table.key (rootText names) = .ok (rootText (settle names)) := by
      rw [Table.key, hread]
      rfl
    exact status_of_find hkey (rootText_ne (settle_ordinary hn) hroot) hfind
  have hrow := read_settled hn hread
  dsimp only at hrow
  rw [← hpath] at hrow
  rw [hstatus]
  constructor
  · intro target htext
    rw [(status_link hk htarget hne hrow).mpr ⟨target, htext, rfl⟩]
    exact ⟨_, rfl, rfl, rfl⟩
  · intro found hfound
    obtain ⟨st, hst, rfl⟩ := map_eq_ok.mp hfound
    obtain ⟨target, htext, rfl⟩ := (status_link hk htarget hne hrow).mp hst
    exact ⟨_, target, rfl, rfl, htext⟩

/-- The rows that a directory holds are listed if each can be reported. -/
theorem list_eq_ok_iff {entries : List Status} :
    t.list path = .ok entries ↔ ∃ key rows, Table.key path = .ok key ∧ t.all = .ok rows ∧
      (key ≠ "/" → ∃ row, t.find key = .ok (some row) ∧ row.kind = .directory) ∧
      ((rows.filter (·.parent == key)).mergeSort fun a b => a.name ≤ b.name).mapM Row.status =
        .ok entries := by
  unfold Table.list
  rw [bind_eq_ok]
  constructor
  · rintro ⟨key, hkey, h⟩
    dsimp only at h
    have hrest : (do (← t.children key).mapM Row.status) = .ok entries → ∃ rows,
        t.all = .ok rows ∧ ((rows.filter (·.parent == key)).mergeSort
          fun a b => a.name ≤ b.name).mapM Row.status = .ok entries := by
      intro h
      obtain ⟨children, hchildren, h⟩ := bind_eq_ok.mp h
      obtain ⟨rows, hall, hchildren⟩ := bind_eq_ok.mp hchildren
      cases hchildren
      exact ⟨rows, hall, h⟩
    by_cases hroot : key = "/"
    · rw [if_neg (by simpa using hroot)] at h
      obtain ⟨rows, hall, h⟩ := hrest h
      exact ⟨key, rows, hkey, hall, fun hne => absurd hroot hne, h⟩
    · rw [if_pos hroot] at h
      obtain ⟨found, hfind, h⟩ := bind_eq_ok.mp h
      split at h
      · obtain ⟨rows, hall, h⟩ := hrest h
        exact ⟨key, rows, hkey, hall, fun _ => ⟨_, hfind, rfl⟩, h⟩
      · cases h
  · rintro ⟨key, rows, hkey, hall, hdir, h⟩
    refine ⟨key, hkey, ?_⟩
    have hchildren : t.children key =
        .ok ((rows.filter (·.parent == key)).mergeSort fun a b => a.name ≤ b.name) := by
      rw [children, hall]
      rfl
    dsimp only
    by_cases hroot : key = "/"
    · rw [if_neg (by simpa using hroot), hchildren]
      exact h
    · obtain ⟨row, hfind, hk⟩ := hdir hroot
      rw [if_pos hroot, hfind, hchildren]
      obtain ⟨path, parent, name, kind, content, size, target, accessed, modified⟩ := row
      obtain rfl : kind = .directory := hk
      exact h

/-- **A directory that could be listed can still be listed** after a link was made whose text can
be read.  Its entries are reported as before. -/
theorem list_of_makeLink (hn : ∀ n ∈ names, Ordinary n) (hne : text ≠ "")
    (hm : t.makeLink now (rootText names) text = .ok t') {target : Path}
    (htext : Path.read text = .ok target) {entries : List Status}
    (hl : t.list path = .ok entries) :
    ∃ entries', t'.list path = .ok entries' ∧ ∀ e' ∈ entries',
      e' ∈ entries ∨ e'.path = ⟨{}, settle (settle names), true⟩ := by
  obtain ⟨hread, hinsert⟩ := link_of_makeLink hn hm
  have hrow := read_settled hn hread
  dsimp only at hrow
  have hgrows := grows_of_insert hinsert
  obtain ⟨rows, row, hall, rfl, -, hpath, hk, htarget⟩ := insert_eq_ok hinsert
  obtain ⟨key, rows', hkey, hall', hdir, hmap⟩ := list_eq_ok_iff.mp hl
  obtain rfl : rows = rows' := Except.ok.inj (hall.symm.trans hall')
  -- Each row is an old one, or that of the link.
  have heach : ∀ r ∈ rows ++ [row], r.parent = key → ∃ st, r.status = .ok st ∧
      (st ∈ entries ∨ st.path = ⟨{}, settle (settle names), true⟩) := by
    intro r hr hparent
    rcases List.mem_append.mp hr with hr | hr
    · obtain ⟨st, hst, hstatus⟩ := forall_of_mapM hmap
        (List.mem_mergeSort.mpr (List.mem_filter.mpr ⟨hr, by simpa using hparent⟩))
      exact ⟨st, hstatus, .inl hst⟩
    · rw [List.mem_singleton.mp hr]
      exact ⟨_, (status_link hk htarget hne (hpath ▸ hrow)).mpr ⟨target, htext, rfl⟩, .inr rfl⟩
  have hheld : ∀ r, r ∈ (((rows ++ [row]).filter (·.parent == key)).mergeSort
      fun a b => a.name ≤ b.name) → r ∈ rows ++ [row] ∧ r.parent = key := by
    intro r hr
    obtain ⟨hmem, hparent⟩ := List.mem_filter.mp (List.mem_mergeSort.mp hr)
    exact ⟨hmem, by simpa using hparent⟩
  obtain ⟨entries', hmap'⟩ := mapM_eq_ok_of_forall fun r hr =>
    (heach r (hheld r hr).1 (hheld r hr).2).imp fun _ h => h.1
  refine ⟨entries', list_eq_ok_iff.mpr ⟨key, _, hkey, rfl, fun hroot => ?_, hmap'⟩,
    fun e' he' => ?_⟩
  · obtain ⟨dir, hfind, hkind⟩ := hdir hroot
    exact ⟨dir, hgrows key dir hfind, hkind⟩
  · obtain ⟨r, hr, hstatus⟩ := exists_of_mem_mapM hmap' he'
    obtain ⟨st, hst, hcases⟩ := heach r (hheld r hr).1 (hheld r hr).2
    obtain rfl : e' = st := Except.ok.inj (hstatus.symm.trans hst)
    exact hcases

end Table

end MountSpace
