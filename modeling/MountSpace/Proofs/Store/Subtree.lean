import MountSpace.Proofs.Path.Lasting
import MountSpace.Proofs.Store.Tree

/-!
# What goes with a directory

Below a directory is whatever has its names and more.  Deleting a directory is to take away its row
and the rows below it, moving it is to bring these under the new path, and nothing else is to
happen, but for an old entry that makes place at the destination.

The prefix match by which the rows are picked does not see the case of ASCII letters, so that it
also picks what lies below a lookalike of the directory, whether or not that itself is there; and
below the root it picks nothing.  Apart from these, exactly the subtree is deleted or moved.

## Main definitions

* `Path.Canonical`, `Row.Canonical`, `Table.Canonical` — texts of paths in normal form, and rows
  that are kept under them.
* `Path.isBelow` — the names of a directory, and more.
* `Path.Lookalike` — the names of a directory but for the case of letters, and more.
* `Table.Pruned` — the rows without a subtree.
* `Row.Shifted`, `Table.Shifted` — a row, and all rows, with a subtree moved.
* `Table.Admits` — two paths between which a move is let through.
* `Table.Apart` — no lookalikes get in the way of a move.

Main statements: `Table.pruned_delete_iff`, `Table.shifted_move_iff`.
-/

namespace MountSpace

open MountSpace.Path

/-! ## Canonical texts -/

namespace Path

/-- The text is the one that a path from the root in normal form, with these names, is written as
and read from. -/
structure Canonical (text : String) (names : List String) : Prop where
  read : Path.read text = .ok ⟨{}, names, true⟩
  text_eq : text = rootText names

/-- Whether `path` has the names of `dir`, and more. -/
def isBelow (dir path : String) : Bool :=
  match Path.read dir, Path.read path with
  | .ok p, .ok q => p.isAncestorOf q
  | _, _ => false

/-- `path` has, and more, the names of `dir` in other letters. -/
def Lookalike (dir path : String) : Prop :=
  ∃ names front rest, Canonical dir names ∧ Canonical path (front ++ rest) ∧ rest ≠ [] ∧
    lowered front = lowered names ∧ front ≠ names

variable {dir path text : String} {names more : List String}

theorem Canonical.ordinary (h : Canonical text names) : ∀ n ∈ names, Ordinary n :=
  (normal_of_read h.read).ordinary rfl

theorem Canonical.settle_eq (h : Canonical text names) : settle names = names := by
  have heq := eq_of_read_rootText h.ordinary (h.text_eq ▸ h.read)
  exact (congrArg Path.segments heq).symm

theorem Canonical.names_eq (h : Canonical text names) (h' : Canonical text more) :
    names = more := by
  have hread := h.read.symm.trans h'.read
  exact congrArg Path.segments (Except.ok.inj hread)

theorem Canonical.ne_nil_iff (h : Canonical text names) : names ≠ [] ↔ text ≠ "/" := by
  rw [h.text_eq]
  constructor
  · exact rootText_ne h.ordinary
  · rintro hne rfl
    exact hne rootText_nil

theorem isBelow_iff (hd : Canonical dir names) (hp : Canonical path more) :
    isBelow dir path = true ↔ ∃ rest, rest ≠ [] ∧ more = names ++ rest := by
  rw [isBelow, hd.read, hp.read]
  exact isAncestorOf_iff.trans (and_iff_right rfl)

/-- Below a directory that is not the root, the prefix match differs from the names just for
lookalikes. -/
theorem isUnder_eq_true_iff (hd : Canonical dir names) (hp : Canonical path more)
    (hne : names ≠ []) :
    Table.isUnder dir path = true ↔ isBelow dir path = true ∨ Lookalike dir path := by
  rw [isBelow_iff hd hp]
  constructor
  · intro hunder
    rw [hd.text_eq, hp.text_eq, Table.isUnder_iff hd.ordinary hp.ordinary hne] at hunder
    obtain ⟨front, rest, hrest, rfl, hlow⟩ := hunder
    by_cases hfront : front = names
    · exact .inl ⟨rest, hrest, by rw [hfront]⟩
    · exact .inr ⟨names, front, rest, hd, hp, hrest, hlow, hfront⟩
  · intro hboth
    rw [hd.text_eq, hp.text_eq, Table.isUnder_iff hd.ordinary hp.ordinary hne]
    rcases hboth with ⟨rest, hrest, rfl⟩ | ⟨names', front, rest, hd', hp', hrest, hlow, -⟩
    · exact ⟨names, rest, hrest, rfl, rfl⟩
    · exact ⟨front, rest, hrest, hp.names_eq hp', by rw [hlow, hd.names_eq hd']⟩

/-- What has the names of a directory does not have them in other letters. -/
theorem Lookalike.isBelow_eq_false (h : Lookalike dir path) : isBelow dir path = false := by
  obtain ⟨names, front, rest, hd, hp, -, hlow, hne⟩ := h
  by_contra hbelow
  obtain ⟨rest', -, happ⟩ := (isBelow_iff hd hp).mp (by simpa using hbelow)
  have hlen : front.length = names.length := by
    rw [← length_lowered, hlow, length_lowered]
  exact hne (List.append_inj happ hlen).1

theorem not_lookalike_self : ¬Lookalike dir dir := by
  rintro ⟨names, front, rest, hd, hp, hrest, hlow, -⟩
  have hlen := congrArg List.length hlow
  have hnames := congrArg List.length (hd.names_eq hp)
  have hpos := List.length_pos_of_ne_nil hrest
  rw [length_lowered, length_lowered] at hlen
  rw [List.length_append] at hnames
  omega

instance (text : String) (names : List String) : Decidable (Canonical text names) :=
  decidable_of_iff (Path.read text = .ok ⟨{}, names, true⟩ ∧ text = rootText names)
    ⟨fun h => ⟨h.1, h.2⟩, fun h => ⟨h.read, h.text_eq⟩⟩

end Path

/-- The row is kept under a canonical text, with the directory and the name split from it. -/
structure Row.Canonical (row : Row) : Prop where
  address : ∃ names, Path.Canonical row.path names
  split : Table.split row.path = .ok (row.parent, row.name)

instance (row : Row) : Decidable row.Canonical :=
  decidable_of_iff
    (Path.Canonical row.path ((Path.read row.path).toOption.elim [] Path.segments) ∧
      Table.split row.path = .ok (row.parent, row.name))
    ⟨fun h => ⟨⟨_, h.1⟩, h.2⟩, fun h => by
      obtain ⟨names, hnames⟩ := h.address
      rw [hnames.read]
      exact ⟨hnames, h.split⟩⟩

theorem Row.Canonical.parent_eq {row : Row} {names : List String} (h : row.Canonical)
    (hn : Path.Canonical row.path names) : row.parent = rootText names.dropLast := by
  have hsplit := h.split
  rw [hn.text_eq] at hsplit
  rw [Table.split_rootText hn.ordinary hsplit, ← dropLast_settle hn.ordinary, hn.settle_eq]

/-- An entry of nothing, as it is kept under the names of its path. -/
def Row.bare (names : List String) (kind : Kind) : Row where
  path := rootText names
  parent := rootText names.dropLast
  name := names.getLast?.getD ""
  kind
  accessed := Instant.toCivil ⟨0⟩
  modified := Instant.toCivil ⟨0⟩

namespace Table

/-- All rows are kept under canonical texts, no two under one. -/
structure Canonical (t : Table) : Prop where
  nodup : (t.rows.map Row.path).Nodup
  row : ∀ row ∈ t.rows, row.Canonical

instance (t : Table) : Decidable t.Canonical :=
  decidable_of_iff ((t.rows.map Row.path).Nodup ∧ ∀ row ∈ t.rows, row.Canonical)
    ⟨fun h => ⟨h.1, h.2⟩, fun h => ⟨h.nodup, h.row⟩⟩

/-- The rows of `t'` are those of `t` without `source` and, if that is a directory, without all
below it. -/
def Pruned (t t' : Table) (source : Row) : Prop :=
  t'.rows = t.rows.filter fun r =>
    ¬(r.path = source.path ∨ source.kind = .directory ∧ isBelow source.path r.path = true)

instance (t t' : Table) (source : Row) : Decidable (t.Pruned t' source) := by
  unfold Pruned; infer_instance

variable {t t' : Table} {source row : Row} {path : String} {recursive : Bool}

theorem Canonical.coherent (h : t.Canonical) : t.Coherent where
  nodup := h.nodup
  placed row hrow := by
    obtain ⟨names, hnames⟩ := (h.row row hrow).address
    refine ⟨names, hnames.ordinary, hnames.text_eq, ?_⟩
    rw [(h.row row hrow).parent_eq hnames, ← dropLast_settle hnames.ordinary, hnames.settle_eq]

/-- What is picked with a directory is what lies below it, unless it is a lookalike or the directory
is the root. -/
theorem isUnder_eq_isBelow_iff (hs : source.Canonical) (hr : row.Canonical) :
    isUnder source.path row.path = isBelow source.path row.path ↔
      ¬(Lookalike source.path row.path ∨ source.path = "/" ∧ row.path ≠ "/") := by
  obtain ⟨names, hnames⟩ := hs.address
  obtain ⟨more, hmore⟩ := hr.address
  by_cases hnil : names = []
  · subst hnil
    have hroot : source.path = "/" := hnames.text_eq
    have hunder : isUnder source.path row.path = false := by
      rw [hroot, hmore.text_eq, not_isUnder_root hmore.ordinary]
    have hlook : ¬Lookalike source.path row.path := by
      rintro ⟨names', front, rest, hd, -, -, hlow, hne⟩
      rw [← hnames.names_eq hd] at hlow hne
      exact hne (List.map_eq_nil_iff.mp hlow)
    rw [hunder, eq_comm, ← Bool.not_eq_true, isBelow_iff hnames hmore, or_iff_right hlook,
      ← hmore.ne_nil_iff, and_iff_right hroot]
    simp only [List.nil_append, exists_eq_right']
  · have hroot : source.path ≠ "/" := hnames.ne_nil_iff.mp hnil
    rw [Bool.eq_iff_iff, isUnder_eq_true_iff hnames hmore hnil, or_iff_left_iff_imp]
    simp only [hroot, false_and, or_false]
    refine ⟨fun h hlook => ?_, fun h hlook => absurd hlook h⟩
    rw [hlook.isBelow_eq_false] at h
    exact absurd (h hlook) Bool.false_ne_true

/-- What is swept is the subtree, unless the prefix match says otherwise. -/
theorem swept_iff_isBelow_iff (hs : source.Canonical) (hr : row.Canonical) :
    (Swept source.path source.kind row ↔
      row.path = source.path ∨ source.kind = .directory ∧ isBelow source.path row.path = true) ↔
      ¬(source.kind = .directory ∧
        (Lookalike source.path row.path ∨ source.path = "/" ∧ row.path ≠ "/")) := by
  by_cases hsame : row.path = source.path
  · refine iff_of_true (iff_of_true (.inl hsame) (.inl hsame)) ?_
    rintro ⟨-, hlook | ⟨hroot, hne⟩⟩
    · exact not_lookalike_self (hsame ▸ hlook)
    · exact hne (hsame.trans hroot)
  · rw [not_and, ← isUnder_eq_isBelow_iff hs hr, Swept, or_iff_right hsame, or_iff_right hsame,
      and_congr_right_iff]
    exact imp_congr_right fun _ => Bool.eq_iff_iff.symm

theorem filter_eq_filter_iff {α : Type} {p q : α → Bool} {xs : List α} :
    xs.filter p = xs.filter q ↔ ∀ x ∈ xs, p x = q x := by
  refine ⟨fun h x hx => ?_, List.filter_congr⟩
  have hmem : x ∈ xs.filter p ↔ x ∈ xs.filter q := by rw [h]
  simpa only [List.mem_filter, hx, true_and, ← Bool.eq_iff_iff] using hmem

/-- **Deleting takes away exactly the subtree** if no entry lies below a lookalike of a deleted
directory, and the root, should it have a row, is not deleted with other entries there. -/
theorem pruned_delete_iff (hc : t.Canonical) (hd : t.delete path recursive = .ok (true, t')) :
    ∃ source ∈ t.rows, Table.key path = .ok source.path ∧
      (t.Pruned t' source ↔ ¬∃ row ∈ t.rows, source.kind = .directory ∧
        (Lookalike source.path row.path ∨ source.path = "/" ∧ row.path ≠ "/")) := by
  rcases rows_of_delete hd with ⟨hfalse, -⟩ | ⟨-, key, source, hkey, hfind, hremove⟩
  · cases hfalse
  obtain ⟨hmem, rfl⟩ := find_eq_some hfind
  refine ⟨source, hmem, hkey, ?_⟩
  rw [Pruned, rows_of_remove hremove, filter_eq_filter_iff, not_exists]
  refine forall_congr' fun row => ?_
  rw [not_and]
  refine imp_congr_right fun hrow => ?_
  rw [decide_eq_decide, not_iff_not, swept_iff_isBelow_iff (hc.row source hmem) (hc.row row hrow)]

/-- A directory with a file in it, next to another file. -/
theorem pruned_delete_iff_recursive :
    let t : Table := ⟨some [.bare ["d"] .directory, .bare ["d", "f"] .file, .bare ["e"] .file]⟩
    let t' : Table := ⟨some [.bare ["e"] .file]⟩
    t.Canonical ∧ t.delete "/d" true = .ok (true, t') ∧
      ∃ source ∈ t.rows, Table.key "/d" = .ok source.path ∧
        (t.Pruned t' source ↔ ¬∃ row ∈ t.rows, source.kind = .directory ∧
          (Lookalike source.path row.path ∨ source.path = "/" ∧ row.path ≠ "/")) := by
  intro t t'
  have hc : t.Canonical := by decide +kernel
  have hd : t.delete "/d" true = .ok (true, t') := by decide +kernel
  exact ⟨hc, hd, pruned_delete_iff hc hd⟩

/-- Deleting an empty directory takes away what is in another one. -/
theorem not_pruned_lookalike :
    let t : Table := ⟨some [.bare ["a"] .directory, .bare ["a", "x"] .file, .bare ["A"] .directory]⟩
    let t' : Table := ⟨some [.bare ["a"] .directory]⟩
    t.Canonical ∧ t.delete "/A" false = .ok (true, t') ∧
      ¬∃ source ∈ t.rows, Table.key "/A" = .ok source.path ∧ t.Pruned t' source := by
  decide +kernel

end Table

/-! ## Moving -/

/-- The row under another path, with the directory and the name split from that. -/
def Row.Readdressed (row : Row) (path : String) (row' : Row) : Prop :=
  ∃ parent name, Table.split path = .ok (parent, name) ∧ row' = { row with path, parent, name }

/-- What moving the entry at `src` to `dest` is to make of a row. -/
inductive Row.Shifted (src dest : String) (row : Row) : Row → Prop
  /-- The entry itself is at the destination. -/
  | entry {row' : Row} : row.path = src → row.Readdressed dest row' → Shifted src dest row row'
  /-- What was below it continues the destination as it continued the source. -/
  | below {row' : Row} {suffix : String} : isBelow src row.path = true → row.path = src ++ suffix →
      row.Readdressed (dest ++ suffix) row' → Shifted src dest row row'
  /-- All else is as it was. -/
  | other : row.path ≠ src → isBelow src row.path = false → Shifted src dest row row

theorem Row.Shifted.eq_of_other {src dest : String} {row row' : Row}
    (h : row.Shifted src dest row') (hne : row.path ≠ src) (hout : isBelow src row.path = false) :
    row' = row := by
  cases h with
  | entry hpath => exact absurd hpath hne
  | below hbelow =>
    rw [hout] at hbelow
    cases hbelow
  | other => rfl

namespace Table

variable {t t' cleared : Table} {source row : Row} {src dest : String} {S D names : List String}
variable {overwrite : Bool}

/-- A move that is let through: from one path in normal form to another that is not below it and
has its directory. -/
structure Admits (t : Table) (src dest : String) : Prop where
  src_canonical : ∃ names, Path.Canonical src names
  dest_canonical : ∃ names, Path.Canonical dest names
  ne : src ≠ dest
  not_below : isBelow src dest = false
  held : ∃ p dir, Path.read dest = .ok p ∧ p.parent? = some dir ∧ t.Held dir.localText

/-- No entry lies below a lookalike of the directory that is moved, or of one that it replaces. -/
structure Apart (t : Table) (src dest : String) : Prop where
  src : ∀ source ∈ t.rows, source.path = src → source.kind = .directory →
    ∀ row ∈ t.rows, row.path ≠ dest → ¬Lookalike src row.path
  dest : ∀ old ∈ t.rows, old.path = dest → old.kind = .directory →
    ∀ row ∈ t.rows, ¬Lookalike dest row.path

/-- The rows of `t'` are those of `t` without the old entry at the destination, moved as they are to
be. -/
def Shifted (t t' : Table) (src dest : String) : Prop :=
  List.Forall₂ (Row.Shifted src dest) (t.rows.filter (·.path ≠ dest)) t'.rows

/-! ### Paths in a tree -/

/-- The paths of a tree have no blanks at the ends of their names. -/
theorem Canonical.plain (hc : t.Canonical) (ht : t.IsTree) (hrow : row ∈ t.rows)
    (hn : Path.Canonical row.path names) : Plain names := by
  induction names using List.reverseRecOn generalizing row with
  | nil => exact fun n hn => absurd hn List.not_mem_nil
  | append_singleton names name ih =>
    have hlast : ¬EndsBlank name :=
      (settle_eq_self_iff hn.ordinary).mp hn.settle_eq name List.getLast?_concat
    have hparent : row.parent = rootText names := by
      rw [(hc.row row hrow).parent_eq hn, List.dropLast_concat]
    have hfront : Plain names := by
      rcases ht row hrow with hroot | ⟨dir, hdir, hpath, -⟩
      · have hnil : names = [] := by
          by_contra hne
          have hfront : ∀ n ∈ names, Ordinary n := fun n hmem => hn.ordinary n (by simp [hmem])
          exact rootText_ne hfront hne (hparent.symm.trans hroot)
        rw [hnil]
        exact fun n hn => absurd hn List.not_mem_nil
      · obtain ⟨inner, hinner⟩ := (hc.row dir hdir).address
        have hfront : ∀ n ∈ names, Ordinary n := fun n hmem => hn.ordinary n (by simp [hmem])
        obtain rfl := rootText_inj hinner.ordinary hfront
          (hinner.text_eq.symm.trans (hpath.trans hparent))
        exact ih hdir hinner
    intro n hmem
    rcases List.mem_append.mp hmem with hmem | hmem
    · exact hfront n hmem
    · rw [List.mem_singleton.mp hmem]
      exact ⟨hn.ordinary name (by simp), hlast⟩

/-- Above an entry stands a directory, and it holds something. -/
theorem exists_holder (hc : t.Canonical) (ht : t.IsTree) (hd : Path.Canonical dest D)
    (hne : D ≠ []) (hrow : row ∈ t.rows) (hbelow : isBelow dest row.path = true) :
    ∃ dir ∈ t.rows, dir.path = dest ∧ dir.kind = .directory ∧
      ∃ child ∈ t.rows, child.parent = dest := by
  obtain ⟨names, hnames⟩ := (hc.row row hrow).address
  obtain ⟨rest, hrest, rfl⟩ := (isBelow_iff hd hnames).mp hbelow
  have hsound : t.Sound := ⟨hc.coherent, ht⟩
  have hplain := hc.plain ht hrow hnames
  obtain ⟨dir, hdir, hdpath, hk⟩ := hsound.exists_directory hplain hrow hnames.text_eq
    (List.prefix_append D rest) hne (by simpa using hrest)
  refine ⟨dir, hdir, hdpath.trans hd.text_eq.symm, hk, ?_⟩
  obtain ⟨name, rest, rfl⟩ := List.exists_cons_of_ne_nil hrest
  obtain ⟨child, hchild, hcpath⟩ : ∃ child ∈ t.rows, child.path = rootText (D ++ [name]) := by
    by_cases hlast : rest = []
    · exact ⟨row, hrow, by rw [hnames.text_eq, hlast]⟩
    · have hfront : D ++ [name] <+: D ++ name :: rest := ⟨rest, by simp⟩
      obtain ⟨child, hchild, hcpath, -⟩ := hsound.exists_directory hplain hrow hnames.text_eq
        hfront (by simp) (by simpa using Ne.symm hlast)
      exact ⟨child, hchild, hcpath⟩
  obtain ⟨inner, hinner⟩ := (hc.row child hchild).address
  have hD : ∀ n ∈ D ++ [name], Ordinary n := fun n hmem => hnames.ordinary n (by
    rw [List.append_cons]
    exact List.mem_append_left _ hmem)
  obtain rfl := rootText_inj hinner.ordinary hD (hinner.text_eq.symm.trans hcpath)
  refine ⟨child, hchild, ?_⟩
  rw [(hc.row child hchild).parent_eq hinner, List.dropLast_concat, hd.text_eq]

/-- Nothing lies below what is not a directory. -/
theorem isBelow_eq_false_of_kind (hc : t.Canonical) (ht : t.IsTree) (hs : Path.Canonical src S)
    (hne : S ≠ []) (hsource : source ∈ t.rows) (hpath : source.path = src)
    (hk : source.kind ≠ .directory) (hrow : row ∈ t.rows) : isBelow src row.path = false := by
  by_contra hbelow
  obtain ⟨dir, hdir, hdpath, hdk, -⟩ :=
    exists_holder hc ht hs hne hrow (by simpa using hbelow)
  rw [eq_of_path_eq hc.coherent hdir hsource (hdpath.trans hpath.symm)] at hdk
  exact hk hdk

/-! ### The destination -/

theorem children_of_remove {old : Row} (h : t.remove old false = .ok cleared)
    (hk : old.kind = .directory) : ∀ row ∈ t.rows, row.parent ≠ old.path := by
  unfold remove at h
  obtain ⟨rows, -, h⟩ := bind_eq_ok.mp h
  dsimp only at h
  rw [if_neg (by simpa using hk)] at h
  obtain ⟨children, hchildren, h⟩ := bind_eq_ok.mp h
  split at h
  · cases h
  rename_i hempty
  obtain rfl : children = [] := by simpa using hempty
  exact children_eq_nil hchildren

/-- Nothing lies below a destination that was cleared. -/
theorem Clears.isBelow_eq_false (hcl : t.Clears dest overwrite cleared) (hc : t.Canonical)
    (ht : t.IsTree) (hd : Path.Canonical dest D) (hne : D ≠ []) (hrow : row ∈ t.rows) :
    isBelow dest row.path = false := by
  by_contra hbelow
  obtain ⟨dir, hdir, hdpath, hk, child, hchild, hparent⟩ :=
    exists_holder hc ht hd hne hrow (by simpa using hbelow)
  cases hcl with
  | free hnone _ => exact find_eq_none hnone dir hdir hdpath
  | @removed old hold _ hremove =>
    obtain ⟨hmem, hpath⟩ := find_eq_some hold
    obtain rfl := eq_of_path_eq hc.coherent hdir hmem (hdpath.trans hpath.symm)
    exact children_of_remove hremove hk child hchild (hparent.trans hpath.symm)

/-- Clearing the destination takes away its own row alone, unless there is a lookalike. -/
theorem Clears.rows_eq_iff (hcl : t.Clears dest overwrite cleared) (hc : t.Canonical)
    (ht : t.IsTree) (hd : Path.Canonical dest D) (hne : D ≠ []) :
    cleared.rows = t.rows.filter (·.path ≠ dest) ↔
      ∀ old ∈ t.rows, old.path = dest → old.kind = .directory →
        ∀ row ∈ t.rows, ¬Lookalike dest row.path := by
  have hbelow : ∀ row ∈ t.rows, isBelow dest row.path = false := fun row hrow =>
    hcl.isBelow_eq_false hc ht hd hne hrow
  cases hcl with
  | free hnone heq =>
    have hfree := find_eq_none hnone
    refine iff_of_true ?_ fun old hold hpath => absurd hpath (hfree old hold)
    rw [heq, List.filter_eq_self.mpr]
    simpa using hfree
  | @removed old hold _ hremove =>
    obtain ⟨hmem, hpath⟩ := find_eq_some hold
    have hagree : ∀ row ∈ t.rows,
        (decide (¬Swept old.path old.kind row) = decide (row.path ≠ dest) ↔
        (old.kind = .directory → ¬Lookalike dest row.path)) := by
      intro row hrow
      obtain ⟨names, hnames⟩ := (hc.row row hrow).address
      rw [decide_eq_decide, not_iff_not, Swept, hpath, isUnder_eq_true_iff hd hnames hne,
        hbelow row hrow, or_iff_right Bool.false_ne_true, or_iff_left_iff_imp, and_imp]
      refine forall_congr' fun hk => ⟨fun h hlook => ?_, fun h hlook => absurd hlook h⟩
      exact not_lookalike_self (h hlook ▸ hlook)
    rw [rows_of_remove hremove, filter_eq_filter_iff, forall₂_congr hagree]
    constructor
    · intro h other hother hsame hk row hrow
      obtain rfl := eq_of_path_eq hc.coherent hother hmem (hsame.trans hpath.symm)
      exact h row hrow hk
    · intro h row hrow hk
      exact h old hmem hpath hk row hrow

/-- Clearing the destination takes away its own row at least. -/
theorem Clears.sublist (hcl : t.Clears dest overwrite cleared) :
    cleared.rows.Sublist (t.rows.filter (·.path ≠ dest)) := by
  cases hcl with
  | free hnone heq =>
    rw [heq, List.filter_eq_self.mpr]
    simpa using find_eq_none hnone
  | @removed old hold _ hremove =>
    obtain ⟨-, hpath⟩ := find_eq_some hold
    rw [rows_of_remove hremove]
    refine List.monotone_filter_right _ fun row hkept => ?_
    simp only [decide_eq_true_eq] at hkept ⊢
    exact fun hsame => hkept (.inl (hsame.trans hpath.symm))

/-! ### The rows -/

theorem forall₂_iff_forall {α β : Type} {R S : α → β → Prop} {P : α → Prop} {xs : List α}
    {ys : List β} (h : List.Forall₂ R xs ys) (hiff : ∀ x ∈ xs, ∀ y, R x y → (S x y ↔ P x)) :
    List.Forall₂ S xs ys ↔ ∀ x ∈ xs, P x := by
  induction h with
  | nil => simp
  | @cons x y xs ys hxy _ ih =>
    rw [List.forall₂_cons, List.forall_mem_cons, hiff x (by simp) y hxy,
      ih fun x hx => hiff x (by simp [hx])]

/-- A row moves as it is to, unless it lies below a lookalike of a directory that is moved. -/
theorem Moves.shifted_iff (hc : t.Canonical) (ht : t.IsTree) (hs : Path.Canonical src S)
    (hd : Path.Canonical dest D) (hS : S ≠ []) (hD : D ≠ []) (hsource : source ∈ t.rows)
    (hpath : source.path = src) (hrow : row ∈ t.rows) (hout : isBelow dest row.path = false)
    {row' : Row} (hm : Moves source src dest row row') :
    row.Shifted src dest row' ↔ (source.kind = .directory → ¬Lookalike src row.path) := by
  obtain ⟨names, hnames⟩ := (hc.row row hrow).address
  by_cases hsame : row.path = src
  · obtain rfl := eq_of_path_eq hc.coherent hrow hsource (hsame.trans hpath.symm)
    rw [Moves, if_pos hsame] at hm
    refine iff_of_true (.entry hsame hm) fun _ hlook => not_lookalike_self (hsame ▸ hlook)
  by_cases hk : source.kind = .directory
  swap
  · have hbelow := isBelow_eq_false_of_kind hc ht hs hS hsource hpath hk hrow
    rw [Moves, if_neg hsame, if_neg fun hdir => hk hdir.1] at hm
    rw [hm]
    exact iff_of_true (.other hsame hbelow) fun hdir => absurd hdir hk
  rw [Moves, if_neg hsame] at hm
  have hunder := isUnder_eq_true_iff hs hnames hS
  by_cases hlook : Lookalike src row.path
  · -- It is moved, but is not below the source, so that it would have to stay.
    rw [if_pos ⟨hk, hunder.mpr (.inr hlook)⟩] at hm
    refine iff_of_false (fun hshift => ?_) fun h => h hk hlook
    have hstay := hshift.eq_of_other hsame hlook.isBelow_eq_false
    obtain ⟨parent, name, -, rfl⟩ := hm
    obtain ⟨S', front, rest, hs', hrow', hrest, hlow, -⟩ := hlook
    obtain rfl := hs.names_eq hs'
    have hmoved : rootText (D ++ rest) = row.path := by
      rw [← congrArg Row.path hstay, hs.text_eq, hd.text_eq, hrow'.text_eq]
      exact (rebase_rootText hS hD hlow).symm
    have hfront : D ++ rest = front ++ rest := by
      refine rootText_inj (fun n hn => ?_) hrow'.ordinary (hmoved.trans hrow'.text_eq)
      exact (List.mem_append.mp hn).elim (hd.ordinary n) fun hn => hrow'.ordinary n (by simp [hn])
    rw [← hfront] at hrow'
    have hbelow := (isBelow_iff hd hrow').mpr ⟨rest, hrest, rfl⟩
    rw [hout] at hbelow
    cases hbelow
  · refine iff_of_true ?_ fun _ => hlook
    by_cases hbelow : isBelow src row.path = true
    · rw [if_pos ⟨hk, hunder.mpr (.inl hbelow)⟩] at hm
      refine .below hbelow ?_ hm
      obtain ⟨rest, -, rfl⟩ := (isBelow_iff hs hnames).mp hbelow
      have hself : rebase (rootText S) (rootText S) (rootText (S ++ rest)) = rootText (S ++ rest) :=
        rebase_rootText hS hS rfl
      rw [← hs.text_eq, ← hnames.text_eq] at hself
      exact hself.symm
    · rw [if_neg fun hin => (hunder.mp hin.2).elim hbelow hlook] at hm
      rw [hm]
      exact .other hsame (by simpa using hbelow)

/-- **Moving takes along exactly the subtree** if no entry lies below a lookalike of a directory
that is moved or replaced. -/
theorem shifted_move_iff (hc : t.Canonical) (ht : t.IsTree) (ha : t.Admits src dest)
    (hm : t.move src dest overwrite = .ok t') : t.Shifted t' src dest ↔ t.Apart src dest := by
  obtain ⟨S, hs⟩ := ha.src_canonical
  obtain ⟨D, hd⟩ := ha.dest_canonical
  obtain ⟨srcKey, destKey, source, cleared, hsrc, hdest, hfind, hclears, hmove⟩ :=
    moveRows_of_move hm
  obtain rfl : src = srcKey := by
    rw [hs.text_eq] at hsrc ⊢
    rw [key_rootText hs.ordinary hsrc, hs.settle_eq]
  obtain rfl : dest = destKey := by
    rw [hd.text_eq] at hdest ⊢
    rw [key_rootText hd.ordinary hdest, hd.settle_eq]
  obtain ⟨hsource, hpath⟩ := find_eq_some hfind
  have hD : D ≠ [] := by
    rintro rfl
    obtain ⟨p, dir, hread, hparent, -⟩ := ha.held
    obtain rfl := Except.ok.inj (hd.read.symm.trans hread)
    cases hparent
  have hS : S ≠ [] := by
    rintro rfl
    have hbelow := (isBelow_iff hs hd).mpr ⟨D, hD, rfl⟩
    rw [ha.not_below] at hbelow
    cases hbelow
  obtain ⟨heq, -⟩ | ⟨-, hmoves, -, -⟩ := moves_of_moveRows hmove
  · exact absurd heq ha.ne
  have hrows := hclears.rows_eq_iff hc ht hd hD
  have hshift := forall₂_iff_forall hmoves fun row hrow row' hmoved =>
    hmoved.shifted_iff hc ht hs hd hS hD hsource hpath (hclears.mem hrow)
      (hclears.isBelow_eq_false hc ht hd hD (hclears.mem hrow))
  constructor
  · intro hall
    -- As many rows are left as are to be moved, so that none was lost at the destination.
    have hsame : cleared.rows = t.rows.filter (·.path ≠ dest) :=
      hclears.sublist.eq_of_length (hmoves.length_eq.trans hall.length_eq.symm)
    refine ⟨fun other hother hopath hk row hrow hne => ?_, hrows.mp hsame⟩
    obtain rfl := eq_of_path_eq hc.coherent hother hsource (hopath.trans hpath.symm)
    rw [Shifted, ← hsame] at hall
    refine hshift.mp hall row ?_ hk
    rw [hsame, List.mem_filter]
    exact ⟨hrow, by simpa using hne⟩
  · intro hapart
    have hsame := hrows.mpr hapart.dest
    rw [Shifted, ← hsame]
    refine hshift.mpr fun row hrow hk => ?_
    rw [hsame, List.mem_filter] at hrow
    exact hapart.src source hsource hpath hk row hrow.1 (by simpa using hrow.2)

/-- A directory with a file in it takes the place of an empty one. -/
theorem shifted_move_iff_replaced :
    let t : Table := ⟨some [.bare ["d"] .directory, .bare ["d", "f"] .file, .bare ["e"] .directory]⟩
    let t' : Table := ⟨some [.bare ["e"] .directory, .bare ["e", "f"] .file]⟩
    t.Canonical ∧ t.IsTree ∧ t.Admits "/d" "/e" ∧ t.move "/d" "/e" true = .ok t' ∧
      (t.Shifted t' "/d" "/e" ↔ t.Apart "/d" "/e") := by
  intro t t'
  have hc : t.Canonical := by decide +kernel
  have ht : t.IsTree := by decide +kernel
  have ha : t.Admits "/d" "/e" :=
    { src_canonical := ⟨["d"], by decide +kernel⟩
      dest_canonical := ⟨["e"], by decide +kernel⟩
      ne := by decide
      not_below := by decide +kernel
      held := ⟨⟨{}, ["e"], true⟩, .root {}, by decide +kernel, rfl, held_root t⟩ }
  have hm : t.move "/d" "/e" true = .ok t' := by decide +kernel
  exact ⟨hc, ht, ha, hm, shifted_move_iff hc ht ha hm⟩

/-- Moving an empty directory takes along what is in another one. -/
theorem not_shifted_lookalike :
    let t : Table := ⟨some [.bare ["a"] .directory, .bare ["a", "x"] .file, .bare ["A"] .directory]⟩
    let t' : Table :=
      ⟨some [.bare ["a"] .directory, .bare ["B", "x"] .file, .bare ["B"] .directory]⟩
    t.Canonical ∧ t.IsTree ∧ t.Admits "/A" "/B" ∧ t.move "/A" "/B" false = .ok t' ∧
      ¬t.Shifted t' "/A" "/B" := by
  intro t t'
  refine ⟨by decide +kernel, by decide +kernel, ?_, by decide +kernel, fun hall => ?_⟩
  · exact
      { src_canonical := ⟨["A"], by decide +kernel⟩
        dest_canonical := ⟨["B"], by decide +kernel⟩
        ne := by decide
        not_below := by decide +kernel
        held := ⟨⟨{}, ["B"], true⟩, .root {}, by decide +kernel, rfl, held_root t⟩ }
  · have hrows : t.rows.filter (·.path ≠ "/B") = t.rows := by decide +kernel
    rw [Shifted, hrows] at hall
    -- The second row is not below what is moved.
    have hrow := (List.forall₂_cons.mp (List.forall₂_cons.mp hall).2).1
    have hstay := hrow.eq_of_other (by decide +kernel) (by decide +kernel)
    exact absurd hstay (by decide +kernel)

end Table

end MountSpace
