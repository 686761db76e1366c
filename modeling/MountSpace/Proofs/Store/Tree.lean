import MountSpace.Proofs.Store.Rows
import Mathlib.Data.List.Nodup

/-!
# The tree in a table

A row names the directory that holds it by the text of its path, and nothing in the table itself
keeps that directory there.  Where it is there for every row, the rows form a tree, and each of
them is found by listing directories from the root on.

Changing rows, making directories and deleting keep the tree.  A new file or link keeps it when its
directory is there.  A move keeps it when directories lead down to the destination and the
destination is not swept along with the source.

## Main definitions

* `Row.Placed`, `Table.Coherent` — rows stored under the texts of paths, no two under one.
* `Table.Held` — the directory with this text is there.
* `Table.IsTree`, `Table.Reached` — every directory is there; found from the root on.
* `Table.Strays` — an entry was put where no directory holds it.
* `Table.Sound` — coherent rows that form a tree.
* `Table.Clear` — nothing but directories stands on the way to a path.

Main statements: `Table.reached_iff_isTree`, `Table.IsTree.remove`, `Table.Moved.isTree`,
`Table.Sound.move`.
-/

namespace MountSpace

open MountSpace.Path

/-- The row of a path, with the directory of the path as it is read again. -/
def Row.Placed (row : Row) : Prop :=
  ∃ names, (∀ n ∈ names, Ordinary n) ∧ row.path = rootText names ∧
    row.parent = rootText (above names)

namespace Table

/-- Rows are placed, and no two under one path. -/
structure Coherent (t : Table) : Prop where
  nodup : (t.rows.map Row.path).Nodup
  placed : ∀ row ∈ t.rows, row.Placed

/-- The directory stored under a text is there. -/
def Held (t : Table) (key : String) : Prop :=
  key = "/" ∨ ∃ dir ∈ t.rows, dir.path = key ∧ dir.kind = .directory

/-- Every row is held by a directory. -/
def IsTree (t : Table) : Prop := ∀ row ∈ t.rows, t.Held row.parent

instance (t : Table) (key : String) : Decidable (t.Held key) := by
  unfold Held; infer_instance

instance (t : Table) : Decidable t.IsTree := by
  unfold IsTree; infer_instance

/-- A row that listing directories from the root on comes to. -/
inductive Reached (t : Table) : Row → Prop
  /-- The root lists it. -/
  | top {row : Row} : row ∈ t.rows → row.parent = "/" → Reached t row
  /-- A directory that is reached lists it. -/
  | inside {dir row : Row} : Reached t dir → dir.kind = .directory → row ∈ t.rows →
      row.parent = dir.path → Reached t row

/-- At the text, or under it, there is an entry that no directory holds. -/
def Strays (t : Table) (key : String) : Prop :=
  ∃ row ∈ t.rows, (row.path = key ∨ isUnder key row.path = true) ∧ ¬t.Held row.parent

variable {t t' : Table} {row source : Row} {key : String} {names : List String}

theorem held_root (t : Table) : t.Held "/" := .inl rfl

theorem not_strays_of_isTree (h : t.IsTree) : ¬t.Strays key := by
  rintro ⟨row, hrow, -, hloose⟩
  exact hloose (h row hrow)

theorem eq_of_path_eq (hc : t.Coherent) (hrow : row ∈ t.rows) (hsource : source ∈ t.rows)
    (h : row.path = source.path) : row = source :=
  List.inj_on_of_nodup_map hc.nodup hrow hsource h

theorem coherent_of_nil (h : t.rows = []) : t.Coherent where
  nodup := by simp [h]
  placed := by simp [h]

theorem isTree_of_nil (h : t.rows = []) : t.IsTree := by simp [IsTree, h]

end Table

/-! ## The names above a path -/

theorem Path.above_prefix (names : List String) :
    ∃ rest, names = above names ++ rest ∧ (names ≠ [] → rest ≠ []) := by
  refine ⟨names.drop (names.length - names.getLast?.elim 0 rise), ?_, fun hne hnil => ?_⟩
  · rw [above, List.rdrop, List.take_append_drop]
  · have hlast : 0 < names.getLast?.elim 0 rise := by
      rw [List.getLast?_eq_some_getLast hne]
      exact rise_pos _
    have hpos := List.length_pos_of_ne_nil hne
    have := List.drop_eq_nil_iff.mp hnil
    omega

theorem Path.above_ordinary {names : List String} (h : ∀ n ∈ names, Ordinary n) :
    ∀ n ∈ above names, Ordinary n := fun n hn => h n (List.mem_of_mem_take hn)

theorem Path.rdrop_append (front rest : List String) (less : Nat) :
    (front ++ rest).rdrop less =
      if less < rest.length then front ++ rest.rdrop less
      else front.rdrop (less - rest.length) := by
  split
  · rw [List.rdrop, List.rdrop, List.length_append, Nat.add_sub_assoc (by omega),
      List.take_length_add_append]
  · rw [List.rdrop, List.rdrop, List.length_append, List.take_append_of_le_length (by omega)]
    congr 1
    omega

/-- What continues a path keeps the directories between, or loses some of the path's own. -/
theorem Path.above_append (front rest : List String) (hne : rest ≠ []) :
    ∃ less, above (front ++ rest) = (front ++ rest).rdrop less ∧ 0 < less ∧
      ∀ other, above (other ++ rest) = (other ++ rest).rdrop less := by
  refine ⟨rise (rest.getLast hne), ?_, rise_pos _, fun other => ?_⟩ <;>
  · rw [above, List.getLast?_append_of_ne_nil _ hne, List.getLast?_eq_some_getLast hne]
    rfl

namespace Table

variable {t t' : Table} {row source : Row} {key : String} {names : List String}

/-- A row lies under the directory that holds it. -/
theorem isUnder_parent (h : row.Placed) (hp : row.parent ≠ "/") :
    isUnder row.parent row.path = true := by
  obtain ⟨names, hn, hpath, hparent⟩ := h
  obtain ⟨rest, hsplit, hrest⟩ := above_prefix names
  have habove : above names ≠ [] := by
    intro hnil
    rw [hparent, hnil] at hp
    exact hp rfl
  have hne : names ≠ [] := by
    rintro rfl
    exact habove above_nil
  have hunder := isUnder_append (hsplit ▸ hn) habove (hrest hne)
  rwa [← hsplit, ← hpath, ← hparent] at hunder

/-- What lies under a directory that holds a row has the row under it as well. -/
theorem isUnder_of_parent (h : row.Placed) (hnames : ∀ n ∈ names, Ordinary n)
    (hu : isUnder (rootText names) row.parent = true) :
    isUnder (rootText names) row.path = true := by
  obtain ⟨inner, hn, hpath, hparent⟩ := h
  obtain ⟨rest, hsplit, -⟩ := above_prefix inner
  rw [hparent] at hu
  rw [hpath, hsplit]
  exact isUnder_of_isUnder_append hnames (hsplit ▸ hn) hu

/-! ## The tree is reached -/

/-- **All rows are reached exactly when each has its directory.** -/
theorem reached_iff_isTree (hc : t.Coherent) :
    (∀ row ∈ t.rows, t.Reached row) ↔ t.IsTree := by
  constructor
  · intro h row hrow
    cases h row hrow with
    | top _ hp => exact .inl hp
    | inside hdir hk _ hp =>
      refine .inr ⟨_, ?_, hp.symm, hk⟩
      cases hdir <;> assumption
  · -- The directory of a row has fewer names than the row.
    intro h
    have key : ∀ n, ∀ row ∈ t.rows, ∀ names, (∀ m ∈ names, Ordinary m) →
        row.path = rootText names → names.length < n → t.Reached row := by
      intro n
      induction n with
      | zero => intro _ _ _ _ _ hlt; omega
      | succ n ih =>
        intro row hrow names hnames hpath hlt
        obtain ⟨inner, hinner, hpath', hparent⟩ := hc.placed row hrow
        obtain rfl : inner = names := rootText_inj hinner hnames (hpath'.symm.trans hpath)
        rcases h row hrow with htop | ⟨dir, hdir, hdpath, hk⟩
        · exact .top hrow htop
        by_cases hnil : inner = []
        · subst hnil
          exact .top hrow hparent
        obtain ⟨rest, hsplit, hrest⟩ := above_prefix inner
        have hshort : (above inner).length < n := by
          have hlen := congrArg List.length hsplit
          have hpos := List.length_pos_of_ne_nil (hrest hnil)
          rw [List.length_append] at hlen
          omega
        exact .inside (ih dir hdir (above inner) (above_ordinary hinner)
          (hdpath.trans hparent) hshort) hk hrow hdpath.symm
    intro row hrow
    obtain ⟨names, hnames, hpath, -⟩ := hc.placed row hrow
    exact key (names.length + 1) row hrow names hnames hpath (Nat.lt_succ_self _)

/-! ## Changing rows -/

theorem SameShape.exists_of_mem (h : SameShape t t') (hrow : row ∈ t'.rows) :
    ∃ r ∈ t.rows, r.path = row.path ∧ r.parent = row.parent ∧ r.kind = row.kind := by
  have hmem : (row.path, row.parent, row.kind) ∈
      t'.rows.map fun r => (r.path, r.parent, r.kind) := List.mem_map_of_mem hrow
  rw [h] at hmem
  obtain ⟨r, hr, heq⟩ := List.mem_map.mp hmem
  simp only [Prod.mk.injEq] at heq
  exact ⟨r, hr, heq⟩

theorem SameShape.symm (h : SameShape t t') : SameShape t' t := Eq.symm h

theorem SameShape.held (h : SameShape t t') (hk : t.Held key) : t'.Held key := by
  rcases hk with hroot | ⟨dir, hdir, hpath, hkind⟩
  · exact .inl hroot
  · obtain ⟨dir', hdir', hpath', -, hkind'⟩ := h.symm.exists_of_mem hdir
    exact .inr ⟨dir', hdir', hpath'.trans hpath, hkind'.trans hkind⟩

theorem SameShape.coherent (h : SameShape t t') (hc : t.Coherent) : t'.Coherent where
  nodup := by
    have hpaths := congrArg (List.map Prod.fst) h
    simp only [List.map_map, Function.comp_def] at hpaths
    have hnodup := hc.nodup
    rwa [← hpaths] at hnodup
  placed row hrow := by
    obtain ⟨r, hr, hpath, hparent, -⟩ := h.exists_of_mem hrow
    obtain ⟨names, hn, hnpath, hnparent⟩ := hc.placed r hr
    exact ⟨names, hn, hpath ▸ hnpath, hparent ▸ hnparent⟩

theorem SameShape.isTree (h : SameShape t t') (ht : t.IsTree) : t'.IsTree := by
  intro row hrow
  obtain ⟨r, hr, -, hparent, -⟩ := h.exists_of_mem hrow
  rw [← hparent]
  exact h.held (ht r hr)

/-! ## Adding rows -/

variable {now : Instant} {kind : Kind} {content : Option Bytes} {target : Option String}

theorem Coherent.insert (hc : t.Coherent) (hnames : ∀ n ∈ names, Ordinary n)
    (h : t.insert now (rootText names) kind content target = .ok t') : t'.Coherent := by
  obtain ⟨row, hrows, hpath, -, hsplit, hfree⟩ := rows_of_insert h
  constructor
  · rw [hrows, List.map_append, List.map_singleton]
    refine List.nodup_append.mpr ⟨hc.nodup, by simp, ?_⟩
    intro path hmem other hother
    obtain ⟨r, hr, rfl⟩ := List.mem_map.mp hmem
    rw [List.mem_singleton.mp hother, hpath]
    exact hfree r hr
  · intro r hr
    rw [hrows, List.mem_append, List.mem_singleton] at hr
    rcases hr with hr | rfl
    · exact hc.placed r hr
    · exact ⟨names, hnames, hpath, split_rootText hnames hsplit⟩

theorem held_of_insert (h : t.insert now key kind content target = .ok t') {dir : String}
    (hd : t.Held dir) : t'.Held dir := by
  obtain ⟨row, hrows, -⟩ := rows_of_insert h
  rcases hd with hroot | ⟨d, hmem, hd⟩
  · exact .inl hroot
  · exact .inr ⟨d, by simp [hrows, hmem], hd⟩

/-- An entry that does not stray keeps the tree. -/
theorem IsTree.insert (ht : t.IsTree) (h : t.insert now key kind content target = .ok t')
    (hin : ¬t'.Strays key) : t'.IsTree := by
  intro r hr
  obtain ⟨row, hrows, hpath, -⟩ := rows_of_insert h
  have hmem := hr
  rw [hrows, List.mem_append, List.mem_singleton] at hr
  rcases hr with hr | rfl
  · exact held_of_insert h (ht r hr)
  · by_contra hloose
    exact hin ⟨r, hmem, .inl hpath, hloose⟩

/-- An entry whose directory is there does not stray, and keeps the tree. -/
theorem IsTree.insert_held (ht : t.IsTree) (h : t.insert now key kind content target = .ok t')
    (hp : ∀ parent name, Table.split key = .ok (parent, name) → t.Held parent) : t'.IsTree := by
  intro r hr
  obtain ⟨row, hrows, -, -, hsplit, -⟩ := rows_of_insert h
  rw [hrows, List.mem_append, List.mem_singleton] at hr
  rcases hr with hr | rfl
  · exact held_of_insert h (ht r hr)
  · exact held_of_insert h (hp _ _ hsplit)

theorem Coherent.write (hc : t.Coherent) (hnames : ∀ n ∈ names, Ordinary n) {data : Bytes}
    {overwrite : Bool} (h : t.write now (rootText names) data overwrite = .ok t') :
    t'.Coherent := by
  rcases shape_of_write h with hshape | ⟨key, hkey, hinsert⟩
  · exact hshape.coherent hc
  · rw [key_rootText hnames hkey] at hinsert
    exact hc.insert (settle_ordinary hnames) hinsert

theorem Coherent.makeDirectory (hc : t.Coherent) (hnames : ∀ n ∈ names, Ordinary n)
    (h : t.makeDirectory now (rootText names) = .ok t') : t'.Coherent := by
  obtain ⟨key, -, -, hkey, -, -, hinsert⟩ := insert_of_makeDirectory h
  rw [key_rootText hnames hkey] at hinsert
  exact hc.insert (settle_ordinary hnames) hinsert

theorem Coherent.makeLink (hc : t.Coherent) (hnames : ∀ n ∈ names, Ordinary n) {text : String}
    (h : t.makeLink now (rootText names) text = .ok t') : t'.Coherent := by
  obtain ⟨key, hkey, hinsert⟩ := insert_of_makeLink h
  rw [key_rootText hnames hkey] at hinsert
  exact hc.insert (settle_ordinary hnames) hinsert

/-- A file that is written anew where its directory is gone is no part of a tree. -/
theorem not_isTree_of_write {path parent name : String} (hkey : Table.key path = .ok key)
    (hfind : t.find key = .ok none) (hsplit : Table.split key = .ok (parent, name))
    (hloose : ¬t.Held parent) (now : Instant) (data : Bytes) (overwrite : Bool) :
    ∃ t', t.write now path data overwrite = .ok t' ∧ ¬t'.IsTree := by
  have hall : ∃ rows, t.all = .ok rows := by
    cases hall : t.all with
    | error e => simp [find, hall, bind, Except.bind] at hfind
    | ok rows => exact ⟨rows, rfl⟩
  obtain ⟨rows, hall⟩ := hall
  have hinsert : ∃ t', t.insert now key .file (some data) none = .ok t' := by
    simp [insert, hfind, hsplit, hall, bind, Except.bind, pure, Except.pure]
  obtain ⟨t', hinsert⟩ := hinsert
  refine ⟨t', by simp [write, hkey, hfind, hinsert, bind, Except.bind], fun htree => ?_⟩
  obtain ⟨row, hrows, -, hk, hrow, -⟩ := rows_of_insert hinsert
  rw [hsplit] at hrow
  cases hrow
  rcases htree row (by simp [hrows]) with hroot | ⟨dir, hdir, hpath, hdk⟩
  · exact hloose (.inl hroot)
  · rw [hrows, List.mem_append, List.mem_singleton] at hdir
    rcases hdir with hdir | rfl
    · exact hloose (.inr ⟨dir, hdir, hpath, hdk⟩)
    · rw [hk] at hdk
      cases hdk

/-- Making directories keeps the tree, since each is made in one that is there. -/
theorem IsTree.makeDirectory (ht : t.IsTree) {path : String}
    (h : t.makeDirectory now path = .ok t') : t'.IsTree := by
  obtain ⟨key, parent, name, -, hsplit, hheld, hinsert⟩ := insert_of_makeDirectory h
  refine ht.insert_held hinsert fun parent' name' hsplit' => ?_
  rw [hsplit] at hsplit'
  cases hsplit'
  exact hheld

/-! ## Removing rows -/

theorem Coherent.remove (hc : t.Coherent) {recursive : Bool}
    (h : t.remove source recursive = .ok t') : t'.Coherent where
  nodup := by
    rw [rows_of_remove h]
    exact hc.nodup.sublist (List.filter_sublist.map _)
  placed row hrow := hc.placed row ((mem_remove_iff h).mp hrow).1

/-- What is swept along with an entry holds no row that is not. -/
theorem not_swept_of_parent (hc : t.Coherent) (hsource : source ∈ t.rows) {dir : Row}
    (hdir : dir ∈ t.rows) (hk : dir.kind = .directory) (hrow : row ∈ t.rows)
    (hp : row.parent = dir.path) (hroot : row.parent ≠ "/")
    (hfree : ¬Swept source.path source.kind row) : ¬Swept source.path source.kind dir := by
  have hunder := isUnder_parent (hc.placed row hrow) hroot
  obtain ⟨names, hnames, hpath, -⟩ := hc.placed source hsource
  rintro (hsame | ⟨hkind, hin⟩)
  · obtain rfl : dir = source := eq_of_path_eq hc hdir hsource hsame
    exact hfree (.inr ⟨hk, hp ▸ hunder⟩)
  · rw [← hp, hpath] at hin
    refine hfree (.inr ⟨hkind, ?_⟩)
    rw [hpath]
    exact isUnder_of_parent (hc.placed row hrow) hnames hin

/-- **Removing keeps the tree.**  With a directory goes everything it holds. -/
theorem IsTree.remove (ht : t.IsTree) (hc : t.Coherent) (hsource : source ∈ t.rows)
    {recursive : Bool} (h : t.remove source recursive = .ok t') : t'.IsTree := by
  intro row hrow
  obtain ⟨hrow, hfree⟩ := (mem_remove_iff h).mp hrow
  by_cases hroot : row.parent = "/"
  · exact .inl hroot
  rcases ht row hrow with htop | ⟨dir, hdir, hpath, hk⟩
  · exact .inl htop
  · exact .inr ⟨dir, (mem_remove_iff h).mpr ⟨hdir, not_swept_of_parent hc hsource hdir hk hrow
      hpath.symm hroot hfree⟩, hpath, hk⟩

theorem held_of_remove {recursive : Bool} (h : t.remove source recursive = .ok t') {dir : String}
    (hd : t.Held dir) (hne : dir ≠ source.path)
    (hunder : isUnder source.path dir = false) : t'.Held dir := by
  rcases hd with hroot | ⟨d, hmem, hpath, hk⟩
  · exact .inl hroot
  · refine .inr ⟨d, (mem_remove_iff h).mpr ⟨hmem, ?_⟩, hpath, hk⟩
    rintro (hsame | ⟨-, hin⟩)
    · exact hne (hpath.symm.trans hsame)
    · rw [hpath, hunder] at hin
      cases hin

theorem delete_keeps (hc : t.Coherent) (ht : t.IsTree) {path : String} {recursive found : Bool}
    (h : t.delete path recursive = .ok (found, t')) : t'.Coherent ∧ t'.IsTree := by
  rcases rows_of_delete h with ⟨-, rfl⟩ | ⟨-, key, row, -, hfind, hremove⟩
  · exact ⟨hc, ht⟩
  · exact ⟨hc.remove hremove, ht.remove hc (find_eq_some hfind).1 hremove⟩

/-! ## Moving rows -/

section Move

variable {S D : List String}

/-- A row that is not swept along stays as it is. -/
theorem Moves.eq_of_not_swept {src dest : String} {r r' : Row} (h : Moves source src dest r r')
    (hfree : ¬Swept src source.kind r) : r' = r := by
  rw [Moves, if_neg fun hp => hfree (.inl hp), if_neg fun hs => hfree (.inr hs)] at h
  exact h

/-- A row under the source continues the destination as it continued the source. -/
theorem Moves.path_eq (hS : ∀ n ∈ S, Ordinary n) (hD : D ≠ []) {r r' : Row} (hr : r.Placed)
    (h : Moves source (rootText S) (rootText D) r r') (hne : r.path ≠ rootText S)
    (hin : source.kind = .directory ∧ isUnder (rootText S) r.path = true) :
    ∃ front rest, rest ≠ [] ∧ lowered front = lowered S ∧ r.path = rootText (front ++ rest) ∧
      (∀ n ∈ front ++ rest, Ordinary n) ∧ r'.path = rootText (D ++ rest) ∧ r'.kind = r.kind ∧
      (Table.split r'.path = .ok (r'.parent, r'.name)) := by
  obtain ⟨names, hn, hpath, -⟩ := hr
  have hSne : S ≠ [] := by
    rintro rfl
    rw [hpath, rootText_nil, not_isUnder_root hn] at hin
    cases hin.2
  rw [Moves, if_neg hne, if_pos hin] at h
  obtain ⟨parent, name, hsplit, rfl⟩ := h
  obtain ⟨front, rest, hrest, rfl, hlow⟩ := (isUnder_iff hS hn hSne).mp (hpath ▸ hin.2)
  refine ⟨front, rest, hrest, hlow, hpath, hn, ?_, rfl, hsplit⟩
  dsimp only
  rw [hpath, rebase_rootText hSne hD hlow]

/-- A move of the row `source`, said by names, once nothing is left at the destination. -/
structure Moved (t t' : Table) (source : Row) (S D : List String) : Prop where
  coherent : t.Coherent
  src_ordinary : ∀ n ∈ S, Ordinary n
  dest_ordinary : ∀ n ∈ D, Ordinary n
  dest_ne : D ≠ []
  mem : source ∈ t.rows
  path_eq : source.path = rootText S
  moves : List.Forall₂ (Moves source (rootText S) (rootText D)) t.rows t'.rows
  nodup : (t'.rows.map Row.path).Nodup

namespace Moved

variable (h : Moved t t' source S D)

include h

theorem coherent_after : t'.Coherent where
  nodup := h.nodup
  placed row hrow := by
    obtain ⟨r, hr, hmove⟩ := exists_left_of_forall₂ h.moves hrow
    by_cases hpath : r.path = rootText S
    · rw [Moves, if_pos hpath] at hmove
      obtain ⟨parent, name, hsplit, rfl⟩ := hmove
      exact ⟨D, h.dest_ordinary, rfl, split_rootText h.dest_ordinary hsplit⟩
    by_cases hin : source.kind = .directory ∧ isUnder (rootText S) r.path = true
    · obtain ⟨front, rest, -, -, -, hn, hdest, -, hsplit⟩ :=
        hmove.path_eq h.src_ordinary h.dest_ne (h.coherent.placed r hr) hpath hin
      have hrest : ∀ n ∈ D ++ rest, Ordinary n :=
        List.forall_mem_append.mpr ⟨h.dest_ordinary, (List.forall_mem_append.mp hn).2⟩
      rw [hdest] at hsplit
      exact ⟨D ++ rest, hrest, hdest, split_rootText hrest hsplit⟩
    · rw [hmove.eq_of_not_swept fun hs => hs.elim hpath hin]
      exact h.coherent.placed r hr

/-- The moved entry is where it was to go. -/
theorem exists_dest : ∃ row ∈ t'.rows, row.path = rootText D ∧ row.kind = source.kind := by
  obtain ⟨row, hrow, hmove⟩ := exists_right_of_forall₂ h.moves h.mem
  rw [Moves, if_pos h.path_eq] at hmove
  obtain ⟨parent, name, -, rfl⟩ := hmove
  exact ⟨_, hrow, rfl, rfl⟩

/-- Directories that are not swept along are still there. -/
theorem held_of_not_swept {dir : String} (hd : t.Held dir) (hne : dir ≠ rootText S)
    (hin : isUnder (rootText S) dir = false) : t'.Held dir := by
  rcases hd with hroot | ⟨d, hmem, hpath, hk⟩
  · exact .inl hroot
  obtain ⟨d', hmem', hmove⟩ := exists_right_of_forall₂ h.moves hmem
  have hsame : d' = d := by
    apply hmove.eq_of_not_swept
    rintro (hs | ⟨-, hu⟩)
    · exact hne (hpath.symm.trans hs)
    · rw [hpath, hin] at hu
      cases hu
  exact .inr ⟨d', hmem', by rw [hsame, hpath], by rw [hsame, hk]⟩

/-- A directory under the source is as far under the destination. -/
theorem held_of_swept {front rest : List String} (hk : source.kind = .directory) (hS : S ≠ [])
    (hlow : lowered front = lowered S) (hrest : rest ≠ [])
    (hn : ∀ n ∈ front ++ rest, Ordinary n) (hd : t.Held (rootText (front ++ rest))) :
    t'.Held (rootText (D ++ rest)) := by
  rcases hd with hroot | ⟨d, hmem, hpath, hdk⟩
  · exact absurd hroot (rootText_ne hn (by simp [hrest]))
  have hlen : front.length = S.length := by rw [← length_lowered, hlow, length_lowered]
  have hne : d.path ≠ rootText S := by
    intro heq
    have hnames := congrArg List.length (rootText_inj hn h.src_ordinary (hpath.symm.trans heq))
    have hpos := List.length_pos_of_ne_nil hrest
    rw [List.length_append] at hnames
    omega
  have hunder : isUnder (rootText S) d.path = true := by
    rw [hpath]
    exact (isUnder_iff h.src_ordinary hn hS).mpr ⟨front, rest, hrest, rfl, hlow⟩
  obtain ⟨d', hmem', hmove⟩ := exists_right_of_forall₂ h.moves hmem
  obtain ⟨front', rest', -, hlow', hpath', hn', hdest, hkind, -⟩ :=
    hmove.path_eq h.src_ordinary h.dest_ne (h.coherent.placed d hmem) hne ⟨hk, hunder⟩
  have hlen' : front'.length = front.length := by
    rw [hlen, ← length_lowered, hlow', length_lowered]
  obtain ⟨-, rfl⟩ := List.append_inj
    (rootText_inj hn' hn (hpath'.symm.trans hpath)) hlen'
  exact .inr ⟨d', hmem', hdest, hkind.trans hdk⟩

/-- What is not swept along keeps its directory. -/
theorem held_parent (ht : t.IsTree) {row : Row} (hrow : row ∈ t.rows)
    (hfree : ¬Swept (rootText S) source.kind row) : t'.Held row.parent := by
  by_cases hroot : row.parent = "/"
  · exact .inl hroot
  rcases ht row hrow with htop | ⟨dir, hdir, hpath, hk⟩
  · exact .inl htop
  have hdirFree := not_swept_of_parent h.coherent h.mem hdir hk hrow hpath.symm hroot
    (h.path_eq ▸ hfree)
  rw [h.path_eq] at hdirFree
  obtain ⟨dir', hdir', hmove⟩ := exists_right_of_forall₂ h.moves hdir
  obtain rfl := hmove.eq_of_not_swept hdirFree
  exact .inr ⟨_, hdir', hpath, hk⟩

/-- A move that leaves nothing astray keeps the tree. -/
theorem isTree_of_not_strays (ht : t.IsTree) (hin : ¬t'.Strays (rootText D)) : t'.IsTree := by
  intro row hrow
  obtain ⟨r, hr, hmove⟩ := exists_left_of_forall₂ h.moves hrow
  by_cases hfree : Swept (rootText S) source.kind r
  · have hplace : row.path = rootText D ∨ isUnder (rootText D) row.path = true := by
      by_cases hpath : r.path = rootText S
      · rw [Moves, if_pos hpath] at hmove
        obtain ⟨parent, name, -, rfl⟩ := hmove
        exact .inl rfl
      · obtain ⟨front, rest, hrest, -, -, hn, hdest, -, -⟩ := hmove.path_eq h.src_ordinary
          h.dest_ne (h.coherent.placed r hr) hpath (hfree.resolve_left hpath)
        right
        rw [hdest]
        exact isUnder_append (List.forall_mem_append.mpr ⟨h.dest_ordinary,
          (List.forall_mem_append.mp hn).2⟩) h.dest_ne hrest
    by_contra hloose
    exact hin ⟨row, hrow, hplace, hloose⟩
  · rw [hmove.eq_of_not_swept hfree]
    exact h.held_parent ht hr hfree

/-- The directories down to a destination that is not under the source stay where they are. -/
theorem held_above_dest (hway : ∀ front, front <+: D → front ≠ D → t.Held (rootText front))
    (hout : isUnder (rootText S) (rootText D) = false) {front : List String} (hf : front <+: D)
    (hne : front ≠ D) : t'.Held (rootText front) := by
  by_cases hnil : front = []
  · subst hnil
    exact .inl rfl
  obtain ⟨rest, rfl⟩ := hf
  have hrest : rest ≠ [] := by
    rintro rfl
    exact hne (List.append_nil _).symm
  refine h.held_of_not_swept (hway front (List.prefix_append _ _) hne) ?_ ?_
  · intro heq
    rw [← heq, isUnder_append h.dest_ordinary hnil hrest] at hout
    cases hout
  · by_contra hin
    rw [isUnder_of_isUnder_append h.src_ordinary h.dest_ordinary (by simpa using hin)] at hout
    cases hout

/-- The directory of a row under the source was under the source, was the source, or is above the
destination. -/
theorem held_parent_of_swept (ht : t.IsTree)
    (habove : ∀ less, 0 < less → t'.Held (rootText (D.rdrop less))) {r r' : Row} (hr : r ∈ t.rows)
    (hmove : Moves source (rootText S) (rootText D) r r') (hpath : r.path ≠ rootText S)
    (hin : source.kind = .directory ∧ isUnder (rootText S) r.path = true) : t'.Held r'.parent := by
  obtain ⟨front, rest, hrest, hlow, hrpath, hn, hdest, -, hsplit⟩ :=
    hmove.path_eq h.src_ordinary h.dest_ne (h.coherent.placed r hr) hpath hin
  have hDrest : ∀ n ∈ D ++ rest, Ordinary n :=
    List.forall_mem_append.mpr ⟨h.dest_ordinary, (List.forall_mem_append.mp hn).2⟩
  obtain ⟨less, habove', hpos, hother⟩ := above_append front rest hrest
  rw [hdest] at hsplit
  rw [split_rootText hDrest hsplit, hother D, rdrop_append]
  split
  · rename_i hlt
    have hcut : rest.rdrop less ≠ [] := by
      intro hnil
      have hlen := congrArg List.length hnil
      rw [List.rdrop, List.length_take, List.length_nil] at hlen
      omega
    have hparent : r.parent = rootText (front ++ rest.rdrop less) := by
      obtain ⟨names, hnames, hnpath, hnparent⟩ := h.coherent.placed r hr
      obtain rfl := rootText_inj hnames hn (hnpath.symm.trans hrpath)
      rw [hnparent, habove', rdrop_append, if_pos hlt]
    have hSne : S ≠ [] := by
      rintro rfl
      rw [hrpath, rootText_nil, not_isUnder_root hn] at hin
      cases hin.2
    obtain ⟨hnf, hnr⟩ := List.forall_mem_append.mp hn
    have hncut : ∀ n ∈ front ++ rest.rdrop less, Ordinary n :=
      List.forall_mem_append.mpr ⟨hnf, fun n hn => hnr n (List.mem_of_mem_take hn)⟩
    exact h.held_of_swept hin.1 hSne hlow hcut hncut (hparent ▸ ht r hr)
  · by_cases hzero : less - rest.length = 0
    · obtain ⟨dest, hmem, hdpath, hdk⟩ := h.exists_dest
      rw [hzero, List.rdrop_zero]
      exact .inr ⟨dest, hmem, hdpath, hdk.trans hin.1⟩
    · exact habove _ (Nat.pos_of_ne_zero hzero)

/-- **Moving keeps the tree** when directories lead down to the destination and the destination is
not itself under the source, up to case. -/
theorem isTree (ht : t.IsTree)
    (hway : ∀ front, front <+: D → front ≠ D → t.Held (rootText front))
    (hout : isUnder (rootText S) (rootText D) = false) : t'.IsTree := by
  have habove : ∀ less, 0 < less → t'.Held (rootText (D.rdrop less)) := by
    intro less hpos
    refine h.held_above_dest hway hout (List.take_prefix _ _) fun heq => ?_
    have hlen := congrArg List.length heq
    have hD := List.length_pos_of_ne_nil h.dest_ne
    rw [List.rdrop, List.length_take] at hlen
    omega
  intro row hrow
  obtain ⟨r, hr, hmove⟩ := exists_left_of_forall₂ h.moves hrow
  by_cases hpath : r.path = rootText S
  · rw [Moves, if_pos hpath] at hmove
    obtain ⟨parent, name, hsplit, rfl⟩ := hmove
    dsimp only
    rw [split_rootText h.dest_ordinary hsplit, above, List.getLast?_eq_some_getLast h.dest_ne]
    exact habove _ (rise_pos _)
  by_cases hin : source.kind = .directory ∧ isUnder (rootText S) r.path = true
  · exact h.held_parent_of_swept ht habove hr hmove hpath hin
  · have hstays : ¬Swept (rootText S) source.kind r := fun hs => hs.elim hpath hin
    rw [hmove.eq_of_not_swept hstays]
    exact h.held_parent ht hr hstays

end Moved

end Move

/-! ## Sound tables -/

/-- Coherent rows that form a tree. -/
structure Sound (t : Table) : Prop where
  coherent : t.Coherent
  isTree : t.IsTree

theorem sound_of_nil (h : t.rows = []) : t.Sound := ⟨coherent_of_nil h, isTree_of_nil h⟩

theorem Sound.sameShape (h : t.Sound) (hs : SameShape t t') : t'.Sound :=
  ⟨hs.coherent h.coherent, hs.isTree h.isTree⟩

theorem Sound.makeDirectory (h : t.Sound) (hnames : ∀ n ∈ names, Ordinary n)
    (hm : t.makeDirectory now (rootText names) = .ok t') : t'.Sound :=
  ⟨h.coherent.makeDirectory hnames hm, h.isTree.makeDirectory hm⟩

theorem Sound.delete (h : t.Sound) {path : String} {recursive found : Bool}
    (hd : t.delete path recursive = .ok (found, t')) : t'.Sound := by
  obtain ⟨hc, ht⟩ := delete_keeps h.coherent h.isTree hd
  exact ⟨hc, ht⟩

/-- Writing a file keeps a sound table when it does not stray. -/
theorem Sound.write (h : t.Sound) (hnames : ∀ n ∈ names, Ordinary n) {data : Bytes}
    {overwrite : Bool} (hw : t.write now (rootText names) data overwrite = .ok t')
    (hin : ∀ key, Table.key (rootText names) = .ok key → ¬t'.Strays key) : t'.Sound := by
  refine ⟨h.coherent.write hnames hw, ?_⟩
  rcases shape_of_write hw with hshape | ⟨key, hkey, hinsert⟩
  · exact hshape.isTree h.isTree
  · exact h.isTree.insert hinsert (hin key hkey)

theorem Sound.makeLink (h : t.Sound) (hnames : ∀ n ∈ names, Ordinary n) {text : String}
    (hl : t.makeLink now (rootText names) text = .ok t')
    (hin : ∀ key, Table.key (rootText names) = .ok key → ¬t'.Strays key) : t'.Sound := by
  refine ⟨h.coherent.makeLink hnames hl, ?_⟩
  obtain ⟨key, hkey, hinsert⟩ := insert_of_makeLink hl
  exact h.isTree.insert hinsert (hin key hkey)

/-! ## Ways of names without blanks at their ends -/

/-- A name that is kept as it is. -/
def Plain (names : List String) : Prop := ∀ n ∈ names, Ordinary n ∧ ¬EndsBlank n

theorem Plain.ordinary (h : Plain names) : ∀ n ∈ names, Ordinary n := fun n hn => (h n hn).1

theorem Plain.settle_eq (h : Plain names) : settle names = names :=
  settle_of_not_endsBlank h.ordinary fun n hn => (h n hn).2

theorem Plain.of_prefix {front : List String} (h : Plain names) (hf : front <+: names) :
    Plain front := fun n hn => h n (hf.subset hn)

theorem Plain.above_eq (h : Plain names) : above names = names.dropLast := by
  rw [← dropLast_settle h.ordinary, h.settle_eq]

/-- A new entry with a plain way keeps a sound table when its directory is there. -/
theorem Sound.insert_held {content : Option Bytes} {target : Option String} {kind : Kind}
    (h : t.Sound) (hp : Plain names) (hd : t.Held (rootText names.dropLast))
    (hi : t.insert now (rootText names) kind content target = .ok t') : t'.Sound := by
  refine ⟨h.coherent.insert hp.ordinary hi, h.isTree.insert_held hi fun parent name hsplit => ?_⟩
  rw [split_rootText hp.ordinary hsplit, hp.above_eq]
  exact hd

theorem Sound.write_held (h : t.Sound) (hp : Plain names) (hd : t.Held (rootText names.dropLast))
    {data : Bytes} {overwrite : Bool} (hw : t.write now (rootText names) data overwrite = .ok t') :
    t'.Sound := by
  rcases shape_of_write hw with hshape | ⟨key, hkey, hinsert⟩
  · exact h.sameShape hshape
  · rw [key_rootText hp.ordinary hkey, hp.settle_eq] at hinsert
    exact h.insert_held hp hd hinsert

theorem Sound.makeLink_held (h : t.Sound) (hp : Plain names)
    (hd : t.Held (rootText names.dropLast)) {text : String}
    (hl : t.makeLink now (rootText names) text = .ok t') : t'.Sound := by
  obtain ⟨key, hkey, hinsert⟩ := insert_of_makeLink hl
  rw [key_rootText hp.ordinary hkey, hp.settle_eq] at hinsert
  exact h.insert_held hp hd hinsert

/-- Nothing but directories stands on the way to a path and at its end. -/
def Clear (t : Table) (names : List String) : Prop :=
  ∀ front, front <+: names → front ≠ [] → ∀ row ∈ t.rows, row.path = rootText front →
    row.kind = .directory

theorem Clear.makeDirectory (hc : t.Clear names) {path : String}
    (h : t.makeDirectory now path = .ok t') : t'.Clear names := by
  obtain ⟨key, -, -, -, -, -, hinsert⟩ := insert_of_makeDirectory h
  obtain ⟨row, hrows, -, hk, -⟩ := rows_of_insert hinsert
  intro front hf hne r hr hpath
  rw [hrows, List.mem_append, List.mem_singleton] at hr
  rcases hr with hr | rfl
  · exact hc front hf hne r hr hpath
  · exact hk

/-- Directories stand on the way to an entry. -/
theorem Sound.exists_directory (h : t.Sound) (hp : Plain names) (hrow : row ∈ t.rows)
    (hpath : row.path = rootText names) {front : List String} (hf : front <+: names)
    (hne : front ≠ []) (hend : front ≠ names) :
    ∃ dir ∈ t.rows, dir.path = rootText front ∧ dir.kind = .directory := by
  induction names using List.reverseRecOn generalizing row with
  | nil => exact absurd (List.prefix_nil.mp hf) hne
  | append_singleton names name ih =>
    rcases List.prefix_concat_iff.mp hf with rfl | hf
    · exact absurd rfl hend
    have hnames : names ≠ [] := by
      rintro rfl
      exact hne (List.prefix_nil.mp hf)
    have hparent : row.parent = rootText names := by
      obtain ⟨inner, hinner, hpath', hparent⟩ := h.coherent.placed row hrow
      obtain rfl := rootText_inj hinner hp.ordinary (hpath'.symm.trans hpath)
      rw [hparent, hp.above_eq, List.dropLast_concat]
    have hplain : Plain names := hp.of_prefix (List.prefix_append _ _)
    rcases h.isTree row hrow with hroot | ⟨dir, hdir, hdpath, hk⟩
    · exact absurd (hparent.symm.trans hroot) (rootText_ne hplain.ordinary hnames)
    by_cases hsame : front = names
    · subst hsame
      exact ⟨dir, hdir, hdpath.trans hparent, hk⟩
    · exact ih hplain hdir (hdpath.trans hparent) hf hsame

/-- In a sound table with an entry, the root lists something. -/
theorem Sound.exists_top (h : t.Sound) (hrow : row ∈ t.rows) :
    ∃ top ∈ t.rows, top.parent = "/" := by
  have hreached := (reached_iff_isTree h.coherent).mpr h.isTree row hrow
  induction hreached with
  | top hmem hp => exact ⟨_, hmem, hp⟩
  | inside hdir _ _ _ ih =>
    apply ih
    cases hdir <;> assumption

/-- Removing an entry keeps the directories above it. -/
theorem held_above_removed {recursive : Bool} (h : t.remove source recursive = .ok t')
    (hp : Plain names) (hne : names ≠ []) (hpath : source.path = rootText names)
    {front : List String} (hf : front <+: names) (hend : front ≠ names)
    (hheld : t.Held (rootText front)) : t'.Held (rootText front) := by
  have hfront : ∀ n ∈ front, Ordinary n := (hp.of_prefix hf).ordinary
  refine held_of_remove h hheld (fun heq => ?_) ?_
  · exact hend (rootText_inj hfront hp.ordinary (heq.trans hpath))
  · by_contra hu
    rw [hpath, Bool.not_eq_false] at hu
    obtain ⟨init, rest, hrest, rfl, hlow⟩ := (isUnder_iff hp.ordinary hfront hne).mp hu
    have hlen := hf.length_le
    have hinit := congrArg List.length hlow
    have hpos := List.length_pos_of_ne_nil hrest
    rw [length_lowered, length_lowered] at hinit
    rw [List.length_append] at hlen
    omega

/-- **A move keeps a sound table** when what it moves does not stray, or when directories lead down
to a destination with plain names that is not under the source. -/
theorem Sound.move (h : t.Sound) {S D : List String} (hS : ∀ n ∈ S, Ordinary n)
    (hD : ∀ n ∈ D, Ordinary n) {overwrite : Bool}
    (hm : t.move (rootText S) (rootText D) overwrite = .ok t')
    (hroot : settle D = [] → ∀ row ∈ t.rows, row.parent ≠ "/")
    (hin : ¬t'.Strays (rootText (settle D)) ∨ Plain D ∧
      (∀ front, front <+: D → front ≠ D → t.Held (rootText front)) ∧
      isUnder (rootText (settle S)) (rootText (settle D)) = false) : t'.Sound := by
  obtain ⟨src, dest, source, cleared, hsrc, hdest, hfind, hclears, hmove⟩ := moveRows_of_move hm
  obtain rfl := key_rootText hS hsrc
  obtain rfl := key_rootText hD hdest
  obtain ⟨hmem, hpath⟩ := find_eq_some hfind
  have hDne : settle D ≠ [] := by
    intro hnil
    obtain ⟨top, htop, hp⟩ := h.exists_top hmem
    exact hroot hnil top htop hp
  have hsound : cleared.Sound := by
    cases hclears with
    | free _ heq => rwa [heq]
    | removed hold _ hremove =>
      exact ⟨h.coherent.remove hremove, h.isTree.remove h.coherent (find_eq_some hold).1 hremove⟩
  rcases moves_of_moveRows hmove with ⟨-, rfl⟩ | ⟨hne, hmoves, ⟨r, hr, hrpath⟩, hnodup⟩
  · exact hsound
  obtain rfl : r = source :=
    eq_of_path_eq h.coherent (hclears.mem hr) hmem (hrpath.trans hpath.symm)
  have hmoved : Moved cleared t' r (settle S) (settle D) :=
    ⟨hsound.coherent, settle_ordinary hS, settle_ordinary hD, hDne, hr, hpath, hmoves, hnodup⟩
  refine ⟨hmoved.coherent_after, ?_⟩
  rcases hin with hin | ⟨hplain, hway, hout⟩
  · exact hmoved.isTree_of_not_strays hsound.isTree hin
  · refine hmoved.isTree hsound.isTree (fun front hf hfne => ?_) hout
    rw [hplain.settle_eq] at hf hfne
    have hheld := hway front hf hfne
    cases hclears with
    | free _ heq => rwa [heq]
    | removed hold _ hremove =>
      have hopath := (find_eq_some hold).2
      rw [hplain.settle_eq] at hopath hDne
      exact held_above_removed hremove hplain hDne hopath hf hfne hheld

end Table

end MountSpace
