import MountSpace.Proofs.Store.Catalogue
import MountSpace.Proofs.Store.CatalogueDisk
import MountSpace.Proofs.Store.Exact

/-!
# Tables that keep a catalogue

A table whose columns agree keeps a catalogue in its rows, one for each path below the root.  What
it reports, lists and reads is what the catalogue says, and whatever there is room for in the
catalogue can be done in the table.  Since the names are tame, the prefix match takes in what is
below a path and nothing else.

## Main definitions

* `Table.Shows` — the rows are the catalogue below the root.
* `SameHoldings` — a disk and a table hold the same.

Main statements: `Table.Shows.status`, `Table.Shows.list`, `Table.Shows.write`,
`Table.Shows.delete`, `Table.Shows.move`, `sameHoldings_of_shows`.
-/

namespace MountSpace

open MountSpace.Path

variable {c : Catalogue} {names other S D : List String} {node : Node} {row source : Row}
variable {text : String}

/-- Among neat names, the case of letters does not matter. -/
theorem Neat.lowered_eq (h : Neat names) : lowered names = names.map String.toList :=
  List.map_congr_left fun n hn => (h n hn).2.lower

theorem Neat.eq_of_lowered (h : Neat names) (h' : Neat other)
    (heq : lowered names = lowered other) : names = other := by
  rw [h.lowered_eq, h'.lowered_eq] at heq
  exact List.map_injective_iff.mpr (fun _ _ hlist => String.toList_inj.mp hlist) heq

theorem Neat.plain (h : Neat names) : Table.Plain names :=
  fun n hn => ⟨(h n hn).1, (h n hn).2.solid⟩

/-! ## Rows -/

/-- The names under which a row is kept. -/
def Row.place (row : Row) : List String :=
  match Path.read row.path with
  | .ok p => p.segments
  | .error _ => []

theorem Row.At.place_eq (h : row.At ⟨{}, names, true⟩) : row.place = names := by
  unfold Row.place
  rw [h.read]

theorem Row.At.names_eq (h : row.At ⟨{}, names, true⟩) (h' : row.At ⟨{}, other, true⟩) :
    names = other :=
  rootText_inj h.plain.ordinary h'.plain.ordinary
    (h.path_eq_rootText.symm.trans h'.path_eq_rootText)

/-- A report says what the row holds, and when. -/
theorem Row.status_untimed {p : Path} (hat : row.At p) (hexact : row.Exact)
    (htext : ∀ text, row.node = .link text → text ≠ "") :
    Status.untimed <$> row.status = row.node.told p := by
  have hnone : row.kind ≠ .link → row.destination = .ok none := fun hne => by
    refine destination_of_none (Option.not_isSome_iff_eq_none.mp fun htarget => ?_)
    exact hne (hexact.target_iff.mp htarget)
  rw [status_eq, hat.read]
  unfold Row.node Node.told
  rw [Row.node] at htext
  cases hk : row.kind with
  | file =>
    rw [hnone (by simp [hk]), hexact.size_eq]
    rfl
  | directory =>
    rw [hnone (by simp [hk])]
    rfl
  | link =>
    obtain ⟨text, htarget⟩ := Option.isSome_iff_exists.mp (hexact.target_iff.mpr hk)
    rw [hk, htarget] at htext
    rw [destination_of_text htarget (htext text rfl), htarget]
    dsimp only [Option.getD_some]
    cases Path.read text <;> rfl

namespace Table

variable {t t' : Table} {now : Instant} {data content : Bytes}

/-- The table is there, and its rows are what the catalogue keeps below the root. -/
structure Shows (t : Table) (c : Catalogue) : Prop where
  there : t.all = .ok t.rows
  exact : t.Exact
  row_iff : ∀ names node, names ≠ [] → (c.node? names = some node ↔
    ∃ row ∈ t.rows, row.At ⟨{}, names, true⟩ ∧ row.node = node)

/-- A table without rows keeps an empty catalogue. -/
theorem shows_of_nil (h : t.rows? = some []) : t.Shows .empty where
  there := by simp [all, rows, h]
  exact := exact_of_nil (by simp [rows, h])
  row_iff names node hne := by simp [rows, h, Catalogue.node?_empty, hne]

theorem key_eq (hs : Storable names) : key (rootText names) = .ok (rootText names) := by
  unfold key
  rw [hs.read]
  rfl

theorem split_eq (hs : Storable names) (hne : names ≠ []) :
    Table.split (rootText names) = .ok (rootText names.dropLast, names.getLast hne) := by
  unfold Table.split
  rw [hs.read]
  obtain ⟨first, rest, rfl⟩ := List.exists_cons_of_ne_nil hne
  simp [bind, Except.bind, pure, Except.pure, parent?, rootText, Path.name,
    List.getLast?_eq_some_getLast]

/-- Below a path lies what continues its names, as long as names are neat. -/
theorem isUnder_neat_iff (hn : Neat names) (ho : Neat other) (hne : names ≠ []) :
    isUnder (rootText names) (rootText other) = true ↔ names <+: other ∧ names ≠ other := by
  rw [isUnder_iff hn.ordinary ho.ordinary hne]
  constructor
  · rintro ⟨front, rest, hrest, rfl, hlow⟩
    obtain rfl := Neat.eq_of_lowered (ho.of_prefix (List.prefix_append _ _)) hn hlow
    exact ⟨List.prefix_append _ _, by simpa using hrest⟩
  · rintro ⟨⟨rest, rfl⟩, hother⟩
    exact ⟨names, rest, by simpa using hother, rfl, rfl⟩

namespace Shows

variable (h : t.Shows c)

include h

theorem exists_names (hrow : row ∈ t.rows) : ∃ names, names ≠ [] ∧ row.At ⟨{}, names, true⟩ ∧
    c.node? names = some row.node := by
  obtain ⟨p, hat⟩ := (h.exact.row row hrow).address
  have hne := hat.ne_nil
  have hat' : row.At ⟨{}, p.segments, true⟩ := hat.rooted ▸ hat
  exact ⟨p.segments, hne, hat', (h.row_iff _ _ hne).mpr ⟨row, hrow, hat', rfl⟩⟩

/-- What is kept is found under its path. -/
theorem find_eq_some (hne : names ≠ []) (hnode : c.node? names = some node) :
    ∃ row ∈ t.rows, t.find (rootText names) = .ok (some row) ∧ row.At ⟨{}, names, true⟩ ∧
      row.node = node := by
  obtain ⟨row, hrow, hat, hnode⟩ := (h.row_iff _ _ hne).mp hnode
  refine ⟨row, hrow, ?_, hat, hnode⟩
  have hfind : t.find (rootText names) = .ok (t.rows.find? (·.path == rootText names)) := by
    unfold Table.find
    rw [h.there]
    rfl
  rw [hfind, find?_of_nodup h.exact.nodup hrow hat.path_eq_rootText]

theorem find_eq_none (hn : ∀ n ∈ names, Ordinary n) (hnone : c.node? names = none) :
    t.find (rootText names) = .ok none := by
  have hmissing : t.rows.find? (·.path == rootText names) = none := by
    rw [List.find?_eq_none]
    intro row hrow hpath
    obtain ⟨other, -, hat, hnode⟩ := h.exists_names hrow
    obtain rfl := rootText_inj hat.plain.ordinary hn
      (hat.path_eq_rootText.symm.trans (by simpa using hpath))
    rw [hnone] at hnode
    cases hnode
  unfold Table.find
  rw [h.there]
  exact congrArg Except.ok hmissing

/-! ## Reading -/

/-- **A table reports what the catalogue says**, times aside. -/
theorem status (hn : Neat names) :
    Option.map Status.untimed <$> t.status (rootText names) = c.status names := by
  unfold Catalogue.status
  cases hread : Path.read (rootText names) with
  | error e =>
    rw [Table.status, key, hread]
    rfl
  | ok p =>
    have hs := storable_of_read hn hread
    obtain rfl := hn.eq_of_read hread
    by_cases hne : names = []
    · subst hne
      rw [status_of_root (key_eq hs)]
      simp only [bind, Except.bind, c.root]
      rfl
    have hroot := rootText_ne hn.ordinary hne
    cases hnode : c.node? names with
    | none =>
      rw [status_of_find (key_eq hs) hroot (h.find_eq_none hn.ordinary hnode)]
      rfl
    | some node =>
      obtain ⟨row, hrow, hfind, hat, rfl⟩ := h.find_eq_some hne hnode
      have hstatus := Row.status_untimed hat (h.exact.row row hrow) fun text htext =>
        (c.texts names text (hnode.trans (congrArg some htext))).1
      rw [status_of_find (key_eq hs) hroot hfind, Option.elim_some]
      simp only [bind, Except.bind, ← hstatus]
      cases row.status <;> rfl

theorem content_eq (hs : Storable names) (hnode : c.node? names = some (.file content)) :
    t.content (rootText names) = .ok content := by
  have hne : names ≠ [] := by
    rintro rfl
    rw [c.root] at hnode
    cases hnode
  obtain ⟨row, -, hfind, -, hrow⟩ := h.find_eq_some hne hnode
  have hk : row.kind ≠ .directory := fun hk => by
    rw [Row.node_eq_directory.mpr hk] at hrow
    cases hrow
  have hcontent : row.content.getD [] = content := by
    unfold Row.node at hrow
    cases hkind : row.kind <;> rw [hkind] at hrow <;> cases hrow
    rfl
  unfold Table.content findFile
  simp only [key_eq hs, hfind, bind, Except.bind, if_neg hk, pure, Except.pure, hcontent]

/-- The rows that a directory holds. -/
theorem at_child (hn : Neat names) (hrow : row ∈ t.rows.filter (·.parent == rootText names)) :
    row.At ⟨{}, names ++ [row.name], true⟩ := by
  obtain ⟨hrow, hparent⟩ := List.mem_filter.mp hrow
  obtain ⟨other, hne, hat, -⟩ := h.exists_names hrow
  have hdir := hat.parent_eq_rootText
  rw [beq_iff_eq.mp hparent] at hdir
  have hfront := rootText_inj hn.ordinary
    (fun n hmem => hat.plain.ordinary n (List.dropLast_subset _ hmem)) hdir
  have hlast := hat.name_eq
  rw [List.getLast?_eq_some_getLast hne, Option.some.injEq] at hlast
  have hother : names ++ [row.name] = other := by
    rw [hfront, ← hlast, List.dropLast_append_getLast]
  exact hother ▸ hat

theorem mem_children_iff (hn : Neat names) (name : String) (node : Node) :
    c.node? (names ++ [name]) = some node ↔
      ∃ row ∈ t.rows.filter (·.parent == rootText names), row.name = name ∧ row.node = node := by
  rw [h.row_iff _ _ (by simp)]
  constructor
  · rintro ⟨row, hrow, hat, hnode⟩
    refine ⟨row, List.mem_filter.mpr ⟨hrow, ?_⟩, ?_, hnode⟩
    · simp [hat.parent_eq_rootText]
    · simpa using hat.name_eq.symm
  · rintro ⟨row, hrow, rfl, hnode⟩
    exact ⟨row, (List.mem_filter.mp hrow).1, h.at_child hn hrow, hnode⟩

/-- No two rows of a directory have one name. -/
theorem nodup_children (hn : Neat names) :
    ((t.rows.filter (·.parent == rootText names)).map Row.name).Nodup := by
  refine List.Nodup.map_on (fun r hr s hs hname => ?_)
    ((List.Nodup.of_map Row.path h.exact.nodup).filter _)
  refine List.inj_on_of_nodup_map h.exact.nodup (List.mem_filter.mp hr).1
    (List.mem_filter.mp hs).1 ?_
  rw [(h.at_child hn hr).path_eq_rootText, (h.at_child hn hs).path_eq_rootText, hname]

theorem children_eq (path : String) : t.children path =
    .ok ((t.rows.filter (·.parent == path)).mergeSort fun a b => a.name ≤ b.name) := by
  unfold Table.children
  rw [h.there]
  rfl

/-- **A table lists what the catalogue says.** -/
theorem list (hs : Storable names) (hdir : c.node? names = some .directory) :
    c.Lists names (t.list (rootText names)) := by
  have hlist : t.list (rootText names) = ((t.rows.filter (·.parent == rootText names)).mergeSort
      fun a b => a.name ≤ b.name).mapM Row.status := by
    unfold Table.list
    rw [key_eq hs]
    by_cases hne : names = []
    · subst hne
      simp only [bind, Except.bind, h.children_eq, rootText_nil]
      rfl
    · obtain ⟨row, -, hfind, -, hrow⟩ := h.find_eq_some hne hdir
      obtain ⟨path, parent, name, kind, content, size, target, accessed, modified⟩ := row
      obtain rfl : kind = .directory := Row.node_eq_directory.mp hrow
      simp only [bind, Except.bind, if_pos (rootText_ne hs.neat.ordinary hne), hfind,
        h.children_eq]
  have hperm := List.mergeSort_perm (t.rows.filter (·.parent == rootText names))
    fun a b => a.name ≤ b.name
  have hitems : ∀ name node, c.node? (names ++ [name]) = some node ↔
      ∃ row ∈ (t.rows.filter (·.parent == rootText names)).mergeSort fun a b => a.name ≤ b.name,
        row.name = name ∧ row.node = node := by
    intro name node
    simp only [h.mem_children_iff hs.neat, hperm.mem_iff]
  have hstatus : ∀ row ∈ (t.rows.filter (·.parent == rootText names)).mergeSort
      fun a b => a.name ≤ b.name, Status.untimed <$> row.status =
        row.node.told ⟨{}, names ++ [row.name], true⟩ := by
    intro row hrow
    have hnode := (hitems row.name row.node).mpr ⟨row, hrow, rfl, rfl⟩
    rw [hperm.mem_iff] at hrow
    exact Row.status_untimed (h.at_child hs.neat hrow)
      (h.exact.row row (List.mem_filter.mp hrow).1) fun text htext =>
        (c.texts _ text (hnode.trans (congrArg some htext))).1
  rw [hlist]
  generalize hsorted : (t.rows.filter (·.parent == rootText names)).mergeSort
    (fun a b => a.name ≤ b.name) = sorted at hperm hitems hstatus ⊢
  cases hmap : sorted.mapM Row.status with
  | error e => exact .of_items_error hstatus hitems hmap
  | ok entries =>
    refine .of_items hstatus hitems ?_ hmap (.refl _) ?_
    · exact (hperm.map Row.name).nodup_iff.mpr (h.nodup_children hs.neat)
    · -- The rows are in order, and each is reported under its name.
      have horder : sorted.Pairwise fun a b => a.name ≤ b.name := by
        rw [← hsorted]
        exact Catalogue.Lists.pairwise_mergeSort_name Row.name _
      have hsortedNames := List.pairwise_map.mpr horder
      rw [← Catalogue.Lists.names_of_mapM hstatus hmap] at hsortedNames
      exact List.pairwise_map.mp hsortedNames

/-! ## Adding and changing rows -/

/-- A table keeps an entry more when there is a row for it, and elsewhere the rows from before. -/
theorem put (hroom : c.Room names node) (hthere : t'.all = .ok t'.rows) (hexact : t'.Exact)
    (hown : ∃ row ∈ t'.rows, row.At ⟨{}, names, true⟩ ∧ row.node = node)
    (hother : ∀ {row : Row} {other : List String}, other ≠ names → row.At ⟨{}, other, true⟩ →
      (row ∈ t'.rows ↔ row ∈ t.rows)) : t'.Shows (.put names node hroom) := by
  refine ⟨hthere, hexact, fun other found hne => ?_⟩
  rw [Catalogue.node?_put]
  by_cases heq : other = names
  · subst heq
    obtain ⟨own, hown, hownAt, rfl⟩ := hown
    rw [if_pos rfl, Option.some.injEq]
    constructor
    · rintro rfl
      exact ⟨own, hown, hownAt, rfl⟩
    · -- There is no second row under the path.
      rintro ⟨row, hrow, hrowAt, rfl⟩
      rw [List.inj_on_of_nodup_map hexact.nodup hrow hown
        (hrowAt.path_eq_rootText.trans hownAt.path_eq_rootText.symm)]
  · rw [if_neg heq, h.row_iff other found hne]
    constructor
    · rintro ⟨row, hrow, hrowAt, hfound⟩
      exact ⟨row, (hother heq hrowAt).mpr hrow, hrowAt, hfound⟩
    · rintro ⟨row, hrow, hrowAt, hfound⟩
      exact ⟨row, (hother heq hrowAt).mp hrow, hrowAt, hfound⟩

/-- A row is added where there is room. -/
theorem insert (hroom : c.Room names node) (hnone : c.node? names = none) (kind : Kind)
    (content : Option Bytes) (target : Option String)
    (hcontent : kind = .directory → content = none) (htarget : target.isSome ↔ kind = .link)
    (hnode : ∀ row : Row, row.kind = kind → row.content = content → row.target = target →
      row.node = node) (now : Instant) :
    ∃ t', t.insert now (rootText names) kind content target = .ok t' ∧
      t'.Shows (.put names node hroom) := by
  have hinsert : ∃ t', t.insert now (rootText names) kind content target = .ok t' := by
    unfold Table.insert
    simp only [h.find_eq_none hroom.storable.neat.ordinary hnone,
      split_eq hroom.storable hroom.ne_nil, h.there, bind, Except.bind]
    exact ⟨_, rfl⟩
  obtain ⟨t', hinsert⟩ := hinsert
  obtain ⟨parent, name, hsplit, hrows⟩ := row_of_insert hinsert
  obtain ⟨rows, new, hall, hnew, -⟩ := insert_eq_ok hinsert
  have hexact := h.exact.insert hroom.storable.neat.plain hroom.ne_nil hcontent htarget hinsert
  have hat : ∀ row : Row, row.path = rootText names → row.parent = parent → row.name = name →
      row.At ⟨{}, names, true⟩ := fun row =>
    Row.at_of_split hroom.storable.neat.plain hroom.ne_nil hsplit
  refine ⟨t', hinsert, h.put hroom (by rw [hnew]; rfl) hexact ?_ fun {row other} hne hrowAt => ?_⟩
  · rw [hrows]
    exact ⟨_, List.mem_append_right _ (List.mem_singleton_self _), hat _ rfl rfl rfl,
      hnode _ rfl rfl rfl⟩
  · rw [hrows, List.mem_append, List.mem_singleton, or_iff_left]
    rintro rfl
    exact hne (hrowAt.names_eq (hat _ rfl rfl rfl))

/-- The row of an entry is changed, and stays where it is. -/
theorem modify (hold : c.node? names ≠ none) (hroom : c.Room names node) {f : Row → Row}
    (hpath : ∀ r, (f r).path = r.path ∧ (f r).parent = r.parent ∧ (f r).name = r.name)
    (hnode : ∀ r ∈ t.rows, r.path = rootText names → (f r).node = node)
    (hexact : (t.modify (rootText names) f).Exact) :
    (t.modify (rootText names) f).Shows (.put names node hroom) := by
  have hthere : (t.modify (rootText names) f).all =
      .ok (t.modify (rootText names) f).rows := by
    have hall := h.there
    obtain ⟨rows? | rows⟩ := t
    · cases hall
    · rfl
  have hat : ∀ {r : Row} {p : Path}, (f r).At p ↔ r.At p := fun {r p} =>
    ⟨fun hfr => hfr.of_eq (hpath r).1.symm (hpath r).2.1.symm (hpath r).2.2.symm,
      fun hr => hr.of_eq (hpath r).1 (hpath r).2.1 (hpath r).2.2⟩
  refine h.put hroom hthere hexact ?_ fun {row other} hne hrowAt => ?_ <;> rw [rows_modify]
  · obtain ⟨old, hnodeOld⟩ := Option.ne_none_iff_exists'.mp hold
    obtain ⟨row, hrow, hrowAt, -⟩ := (h.row_iff names old hroom.ne_nil).mp hnodeOld
    refine ⟨f row, List.mem_map.mpr ⟨row, hrow, ?_⟩, hat.mpr hrowAt,
      hnode row hrow hrowAt.path_eq_rootText⟩
    rw [if_pos (by simpa using hrowAt.path_eq_rootText)]
  · -- A row under another path is not changed.
    have hkept : ∀ {row : Row}, row.At ⟨{}, other, true⟩ →
        ¬(row.path == rootText names) = true := by
      intro row hrowAt hkey
      exact hne (rootText_inj hrowAt.plain.ordinary hroom.storable.neat.ordinary
        (hrowAt.path_eq_rootText.symm.trans (beq_iff_eq.mp hkey)))
    rw [List.mem_map]
    constructor
    · rintro ⟨old, hold, rfl⟩
      by_cases hkey : (old.path == rootText names) = true
      · rw [if_pos hkey] at hrowAt
        exact absurd hkey (hkept (hat.mp hrowAt))
      · rwa [if_neg hkey]
    · intro hrow
      exact ⟨row, hrow, by rw [if_neg (hkept hrowAt)]⟩

/-- **A file is written** where there is room for it, but not in the place of a link. -/
theorem write (hroom : c.Room names (.file data)) {overwrite : Bool}
    (hold : c.node? names = none ∨
      overwrite = true ∧ ∃ content, c.node? names = some (.file content)) (now : Instant) :
    ∃ t', t.write now (rootText names) data overwrite = .ok t' ∧
      t'.Shows (.put names (.file data) hroom) := by
  rcases hold with hnone | ⟨rfl, content, hnode⟩
  · obtain ⟨t', hinsert, hshows⟩ := h.insert hroom hnone .file (some data) none (by simp)
      (by simp) (fun row hk hc _ => by simp [Row.node, hk, hc]) now
    refine ⟨t', ?_, hshows⟩
    unfold Table.write
    simp only [key_eq hroom.storable, h.find_eq_none hroom.storable.neat.ordinary hnone, bind,
      Except.bind, hinsert]
  · obtain ⟨row, hrow, hfind, hat, hrowNode⟩ := h.find_eq_some hroom.ne_nil hnode
    have hk : row.kind = .file := by
      unfold Row.node at hrowNode
      cases hkind : row.kind <;> rw [hkind] at hrowNode <;> cases hrowNode
    have hwrite : ∃ t', t.write now (rootText names) data true = .ok t' ∧
        t' = t.modify (rootText names) fun r => { r with
          content := some data, size := data.length, modified := now.toCivil,
          accessed := now.toCivil } := by
      unfold Table.write
      simp only [key_eq hroom.storable, hfind, hk, bind, Except.bind]
      exact ⟨_, rfl, rfl⟩
    obtain ⟨t', hwrite, rfl⟩ := hwrite
    refine ⟨_, hwrite, h.modify (by simp [hnode]) hroom (fun _ => ⟨rfl, rfl, rfl⟩)
      (fun r hr hpath => ?_) (h.exact.write hroom.storable.neat.plain hroom.ne_nil hwrite)⟩
    obtain rfl := h.exact.eq_of_find hfind hr hpath
    simp [Row.node, hk]

/-- Bytes are appended to a file. -/
theorem append (hnode : c.node? names = some (.file content))
    (hroom : c.Room names (.file (content ++ data))) (now : Instant) :
    ∃ t', t.append now (rootText names) data = .ok t' ∧
      t'.Shows (.put names (.file (content ++ data)) hroom) := by
  obtain ⟨row, hrow, hfind, hat, hrowNode⟩ := h.find_eq_some hroom.ne_nil hnode
  have hk : row.kind = .file ∧ row.content.getD [] = content := by
    unfold Row.node at hrowNode
    cases hkind : row.kind <;> rw [hkind] at hrowNode <;> cases hrowNode
    exact ⟨rfl, rfl⟩
  obtain ⟨hk, rfl⟩ := hk
  have happend : ∃ t', t.append now (rootText names) data = .ok t' ∧
      t' = t.modify (rootText names) fun r => { r with
        content := some (row.content.getD [] ++ data)
        size := (row.content.getD [] ++ data).length, modified := now.toCivil } := by
    unfold Table.append findFile
    simp only [key_eq hroom.storable, hfind, hk, bind, Except.bind]
    exact ⟨_, rfl, rfl⟩
  obtain ⟨t', happend, rfl⟩ := happend
  refine ⟨_, happend, h.modify (by simp [hnode]) hroom (fun _ => ⟨rfl, rfl, rfl⟩)
    (fun r hr hpath => ?_) (h.exact.append happend)⟩
  obtain rfl := h.exact.eq_of_find hfind hr hpath
  simp [Row.node, hk]

/-- **A directory is made** where there is room for it. -/
theorem makeDirectory (hroom : c.Room names .directory) (hnone : c.node? names = none)
    (now : Instant) : ∃ t', t.makeDirectory now (rootText names) = .ok t' ∧
      t'.Shows (.put names .directory hroom) := by
  obtain ⟨t', hinsert, hshows⟩ := h.insert hroom hnone .directory none none (by simp) (by simp)
    (fun row hk _ _ => by simp [Row.node, hk]) now
  refine ⟨t', ?_, hshows⟩
  unfold Table.makeDirectory
  simp only [key_eq hroom.storable, split_eq hroom.storable hroom.ne_nil, bind, Except.bind]
  by_cases hnil : names.dropLast = []
  · rw [hnil, rootText_nil, if_neg (by simp)]
    exact hinsert
  · obtain ⟨row, -, hfind, -, hrow⟩ := h.find_eq_some hnil hroom.dir
    obtain ⟨path, parent, name, kind, content, size, target, accessed, modified⟩ := row
    obtain rfl : kind = .directory := Row.node_eq_directory.mp hrow
    have hfront := hroom.storable.neat.of_prefix (List.dropLast_prefix names)
    rw [if_pos (rootText_ne hfront.ordinary hnil), hfind]
    exact hinsert

/-- **A link is made** where there is room for it. -/
theorem makeLink (hroom : c.Room names (.link text)) (hnone : c.node? names = none)
    (now : Instant) : ∃ t', t.makeLink now (rootText names) text = .ok t' ∧
      t'.Shows (.put names (.link text) hroom) := by
  obtain ⟨t', hinsert, hshows⟩ := h.insert hroom hnone .link none (some text) (by simp) (by simp)
    (fun row hk _ ht => by simp [Row.node, hk, ht]) now
  refine ⟨t', ?_, hshows⟩
  unfold Table.makeLink
  simp only [key_eq hroom.storable, bind, Except.bind, hinsert]

/-! ## Taking rows away -/

theorem remove (hs : Storable names) (hne : names ≠ []) (hnode : c.node? names = some node)
    (hfind : t.find (rootText names) = .ok (some source)) {recursive : Bool}
    (hempty : node = .directory → recursive = true ∨ ∀ name, c.node? (names ++ [name]) = none) :
    ∃ t', t.remove source recursive = .ok t' ∧ t'.Shows (c.prune names hne) := by
  obtain ⟨row, hrow, hfind', hat, hrowNode⟩ := h.find_eq_some hne hnode
  obtain rfl : source = row := Option.some.inj (Except.ok.inj (hfind.symm.trans hfind'))
  have hpath := hat.path_eq_rootText
  have hremove : ∃ rows, t.remove source recursive = .ok ⟨some rows⟩ := by
    unfold Table.remove
    by_cases hk : source.kind = .directory
    · have hfull : (!recursive && !((t.rows.filter (·.parent == source.path)).mergeSort
          fun a b => a.name ≤ b.name).isEmpty) = false := by
        rw [← hrowNode] at hempty
        rcases hempty (Row.node_eq_directory.mpr hk) with rfl | hnothing
        · rfl
        · have hnone : t.rows.filter (·.parent == source.path) = [] := by
            rw [hpath]
            refine List.eq_nil_iff_forall_not_mem.mpr fun child hchild => ?_
            have hthere := (h.mem_children_iff hs.neat child.name child.node).mpr
              ⟨child, hchild, rfl, rfl⟩
            rw [hnothing] at hthere
            cases hthere
          simp [hnone]
      simp only [h.there, bind, Except.bind, hk, h.children_eq]
      rw [if_neg (by simp), hfull]
      exact ⟨_, rfl⟩
    · simp only [h.there, bind, Except.bind]
      rw [if_pos hk]
      exact ⟨_, rfl⟩
  obtain ⟨rows, hremove⟩ := hremove
  refine ⟨_, hremove, rfl, h.exact.remove hremove, fun other found hother => ?_⟩
  -- The rows that go are those at the path and below it.
  have hswept : ∀ row ∈ t.rows, row.At ⟨{}, other, true⟩ →
      (Swept source.path source.kind row ↔ names <+: other) := by
    intro row hrow hrowAt
    have hthere := (h.row_iff other row.node hother).mpr ⟨row, hrow, hrowAt, rfl⟩
    have hsame : row.path = source.path ↔ names = other := by
      rw [hpath, hrowAt.path_eq_rootText]
      exact ⟨fun heq => (rootText_inj hrowAt.plain.ordinary hs.neat.ordinary heq).symm,
        fun heq => heq ▸ rfl⟩
    have hunder : isUnder source.path row.path = true ↔ names <+: other ∧ names ≠ other := by
      rw [hpath, hrowAt.path_eq_rootText]
      exact isUnder_neat_iff hs.neat (c.storable other (by simp [hthere])).neat hne
    rw [Swept, hsame, hunder]
    constructor
    · rintro (rfl | ⟨-, hp, -⟩)
      · exact List.prefix_rfl
      · exact hp
    · intro hp
      by_cases heq : names = other
      · exact .inl heq
      refine .inr ⟨?_, hp, heq⟩
      obtain ⟨rest, rfl⟩ := hp
      have hdir := c.directory_of_append (by simp [hthere] : c.node? (names ++ rest) ≠ none)
        (by simpa using heq)
      rw [← Row.node_eq_directory, hrowNode]
      exact Option.some.inj (hnode.symm.trans hdir)
  rw [Catalogue.node?_prune]
  constructor
  · intro hkept
    have hout : ¬names <+: other := fun hp => by
      rw [if_pos hp] at hkept
      cases hkept
    rw [if_neg hout, h.row_iff other found hother] at hkept
    obtain ⟨row, hrow, hrowAt, hfound⟩ := hkept
    exact ⟨row, (mem_remove_iff hremove).mpr ⟨hrow, (hswept row hrow hrowAt).not.mpr hout⟩,
      hrowAt, hfound⟩
  · rintro ⟨row, hrow, hrowAt, hfound⟩
    obtain ⟨hrow, hstays⟩ := (mem_remove_iff hremove).mp hrow
    rw [if_neg ((hswept row hrow hrowAt).not.mp hstays)]
    exact (h.row_iff other found hother).mpr ⟨row, hrow, hrowAt, hfound⟩

/-- **An entry is deleted** that is there, unless it is a directory that holds something and all
is not to be taken along. -/
theorem delete (hs : Storable names) (hne : names ≠ []) (hnode : c.node? names = some node)
    {recursive : Bool}
    (hempty : node = .directory → recursive = true ∨ ∀ name, c.node? (names ++ [name]) = none) :
    ∃ t', t.delete (rootText names) recursive = .ok (true, t') ∧ t'.Shows (c.prune names hne) := by
  obtain ⟨row, -, hfind, -, -⟩ := h.find_eq_some hne hnode
  obtain ⟨t', hremove, hshows⟩ := h.remove hs hne hnode hfind hempty
  refine ⟨t', ?_, hshows⟩
  unfold Table.delete
  simp only [key_eq hs, hfind, hremove, bind, Except.bind]
  rfl

/-! ## Moving rows -/

section Move

variable (hp : c.Passage S D) (hsource : source ∈ t.rows) (hat : source.At ⟨{}, S, true⟩)

include hp hsource hat

theorem kept_source : c.node? S = some source.node :=
  (h.row_iff S source.node hp.src_ne).mpr ⟨source, hsource, hat, rfl⟩

theorem storable_dest : Storable D := by
  have hthere : c.node? (S ++ []) ≠ none := by simp [h.kept_source hp hsource hat]
  simpa using hp.storable [] hthere

/-- A row is under the source exactly if it is to be moved along. -/
theorem isUnder_source_iff {old : List String} (hrow : row ∈ t.rows)
    (hold : row.At ⟨{}, old, true⟩) :
    source.kind = .directory ∧ isUnder (rootText S) row.path = true ↔ S <+: old ∧ S ≠ old := by
  have hthere := (h.row_iff old row.node hold.ne_nil).mpr ⟨row, hrow, hold, rfl⟩
  have hS := c.storable S (by simp [h.kept_source hp hsource hat])
  have hneat := (c.storable old (by simp [hthere])).neat
  rw [hold.path_eq_rootText, isUnder_neat_iff hS.neat hneat hp.src_ne]
  refine and_iff_right_of_imp ?_
  rintro ⟨⟨rest, rfl⟩, hne⟩
  have hdir := c.directory_of_append (by simp [hthere] : c.node? (S ++ rest) ≠ none)
    (by simpa using hne)
  rw [← Row.node_eq_directory]
  exact Option.some.inj ((h.kept_source hp hsource hat).symm.trans hdir)

/-- A row is kept under its new path once it is moved. -/
theorem moved_at {old : List String} {row' : Row} (hrow : row ∈ t.rows)
    (hold : row.At ⟨{}, old, true⟩) (hm : Moves source (rootText S) (rootText D) row row') :
    row'.At ⟨{}, HostTree.rebase S D old, true⟩ ∧ row'.node = row.node := by
  have hunder := h.isUnder_source_iff hp hsource hat hrow hold
  have hplain := (h.storable_dest hp hsource hat).neat.plain
  have hsame : row.path = rootText S ↔ old = S := by
    rw [hold.path_eq_rootText]
    exact ⟨rootText_inj hold.plain.ordinary hat.plain.ordinary, fun heq => heq ▸ rfl⟩
  unfold Moves at hm
  split at hm
  · rename_i hpath
    obtain ⟨parent, name, hsplit, rfl⟩ := hm
    obtain rfl := hsame.mp hpath
    obtain rfl : row = source := List.inj_on_of_nodup_map h.exact.nodup hrow hsource
      (hpath.trans hat.path_eq_rootText.symm)
    have hself := HostTree.rebase_append old D []
    rw [List.append_nil, List.append_nil] at hself
    rw [hself]
    exact ⟨Row.at_of_split hplain hp.dest_ne hsplit rfl rfl rfl, rfl⟩
  split at hm
  · rename_i hin
    obtain ⟨parent, name, hsplit, rfl⟩ := hm
    obtain ⟨⟨rest, rfl⟩, -⟩ := hunder.mp hin
    have hrest := hp.storable rest (by
      rw [(h.row_iff _ row.node hold.ne_nil).mpr ⟨row, hrow, hold, rfl⟩]
      simp)
    rw [hold.path_eq_rootText, rebase_rootText hp.src_ne hp.dest_ne rfl] at hsplit ⊢
    rw [HostTree.rebase_append]
    exact ⟨Row.at_of_split hrest.neat.plain (by simp [hp.dest_ne]) hsplit rfl rfl rfl, rfl⟩
  · rename_i hpath hout
    have hnot : ¬S <+: old := fun hin =>
      hout (hunder.mpr ⟨hin, fun heq => hpath (hsame.mpr heq.symm)⟩)
    rw [hm, HostTree.rebase_of_not_below hnot]
    exact ⟨hold, rfl⟩

/-- Every row can be kept under its new path. -/
theorem follow_eq_ok (hrow : row ∈ t.rows) :
    ∃ pair, follow source (rootText S) (rootText D) row = .ok pair := by
  obtain ⟨old, hne, hold, hnode⟩ := h.exists_names hrow
  unfold follow
  split
  swap
  · exact ⟨_, rfl⟩
  rename_i hc
  obtain ⟨⟨rest, rfl⟩, -⟩ :=
    (h.isUnder_source_iff hp hsource hat hrow hold).mp ⟨hc.1, hc.2.2⟩
  have hsplit := split_eq (hp.storable rest (by simp [hnode])) (by simp [hp.dest_ne])
  rw [hold.path_eq_rootText, rebase_rootText hp.src_ne hp.dest_ne rfl]
  unfold moveRow
  simp only [hsplit, bind, Except.bind]
  exact ⟨_, rfl⟩

/-- No two rows are moved under one path. -/
theorem nodup_moved {rows : List Row}
    (hmoves : List.Forall₂ (Moves source (rootText S) (rootText D)) t.rows rows) :
    (rows.map Row.path).Nodup := by
  have hpaths : rows.map Row.path =
      t.rows.map fun row => rootText (HostTree.rebase S D row.place) := by
    have hsame : List.Forall₂ (· = ·)
        (t.rows.map fun row => rootText (HostTree.rebase S D row.place)) (rows.map Row.path) := by
      refine List.forall₂_map_left_iff.mpr (List.forall₂_map_right_iff.mpr ?_)
      refine List.forall₂_iff_get.mpr ⟨hmoves.length_eq, fun n hn hn' => ?_⟩
      have hrow := List.get_mem t.rows ⟨n, hn⟩
      obtain ⟨old, -, hold, -⟩ := h.exists_names hrow
      have hnew := (h.moved_at hp hsource hat hrow hold (hmoves.get hn hn')).1
      rw [hold.place_eq, hnew.path_eq_rootText]
    rw [List.forall₂_eq_eq_eq] at hsame
    exact hsame.symm
  have hfree : ∀ row ∈ t.rows, ¬D <+: row.place := by
    rintro row hrow ⟨rest, hrest⟩
    obtain ⟨old, -, hold, hnode⟩ := h.exists_names hrow
    rw [hold.place_eq] at hrest
    rw [← hrest, c.none_of_append hp.free rest] at hnode
    cases hnode
  have hordinary : ∀ row ∈ t.rows, ∀ n ∈ HostTree.rebase S D row.place, Ordinary n := by
    intro row hrow
    obtain ⟨old, -, hold, hnode⟩ := h.exists_names hrow
    rw [hold.place_eq]
    have hthere := (Catalogue.move_eq_some_iff hp).mpr ⟨old, hnode, rfl⟩
    exact ((Catalogue.move S D hp).storable _ (by simp [hthere])).neat.ordinary
  rw [hpaths]
  refine List.Nodup.map_on (fun r hr s hs heq => ?_) (List.Nodup.of_map Row.path h.exact.nodup)
  have hnames := HostTree.rebase_inj (hfree r hr) (hfree s hs)
    (rootText_inj (hordinary r hr) (hordinary s hs) heq)
  obtain ⟨old, -, hold, -⟩ := h.exists_names hr
  obtain ⟨other, -, hother, -⟩ := h.exists_names hs
  rw [hold.place_eq, hother.place_eq] at hnames
  refine List.inj_on_of_nodup_map h.exact.nodup hr hs ?_
  rw [hold.path_eq_rootText, hother.path_eq_rootText, hnames]

theorem moveRows_eq_ok : ∃ rows, t.moveRows source (rootText S) (rootText D) = .ok ⟨some rows⟩ ∧
    List.Forall₂ (Moves source (rootText S) (rootText D)) t.rows rows := by
  have hD := h.storable_dest hp hsource hat
  have htexts : rootText S ≠ rootText D := fun heq =>
    hp.src (rootText_inj hat.plain.ordinary hD.neat.ordinary heq ▸ List.prefix_rfl)
  have hsplit := split_eq hD hp.dest_ne
  obtain ⟨pairs, hpairs⟩ := mapM_eq_ok_of_forall fun row hrow =>
    h.follow_eq_ok hp hsource hat hrow
  have hstep := forall₂_of_mapM hpairs
  have hmoved : moveRow source (rootText D) = .ok { source with
      path := rootText D, parent := rootText D.dropLast, name := D.getLast hp.dest_ne } := by
    unfold moveRow
    simp only [hsplit, bind, Except.bind]
    rfl
  have hany : pairs.any (·.1 == rootText S) = true := by
    obtain ⟨pair, hpair, hfollow⟩ := exists_right_of_forall₂ hstep hsource
    refine List.any_eq_true.mpr ⟨pair, hpair, ?_⟩
    rw [(moves_of_follow hsplit hfollow).1, hat.path_eq_rootText]
    exact beq_self_eq_true _
  have hmoves := List.forall₂_map_right_iff.mpr
    (hstep.imp fun row pair hpair => (moves_of_follow hsplit hpair).2)
  refine ⟨_, ?_, hmoves⟩
  unfold moveRows
  rw [if_neg htexts]
  simp only [h.there, hpairs, hmoved, hany, bind, Except.bind]
  rw [if_neg (by simp)]
  exact if_pos (h.nodup_moved hp hsource hat hmoves)

/-- The rows are moved once nothing is in their way. -/
theorem moveRows : ∃ t', t.moveRows source (rootText S) (rootText D) = .ok t' ∧
    t'.Shows (.move S D hp) := by
  obtain ⟨rows, hmove, hmoves⟩ := h.moveRows_eq_ok hp hsource hat
  have hexact : Exact ⟨some rows⟩ := by
    refine ⟨h.nodup_moved hp hsource hat hmoves, fun row' hrow' => ?_⟩
    obtain ⟨row, hrow, hmoved⟩ := exists_left_of_forall₂ hmoves hrow'
    exact h.exact.moves hat.plain (h.storable_dest hp hsource hat).neat.plain hp.src_ne
      hp.dest_ne hsource hrow hmoved
  refine ⟨_, hmove, rfl, hexact, fun other found hother => ?_⟩
  rw [Catalogue.move_eq_some_iff]
  constructor
  · rintro ⟨old, hnode, rfl⟩
    have hne : old ≠ [] := by
      rintro rfl
      rw [HostTree.rebase_of_not_below (by simpa using hp.src_ne)] at hother
      exact hother rfl
    obtain ⟨row, hrow, hold, rfl⟩ := (h.row_iff old found hne).mp hnode
    obtain ⟨row', hrow', hmoved⟩ := exists_right_of_forall₂ hmoves hrow
    exact ⟨row', hrow', h.moved_at hp hsource hat hrow hold hmoved⟩
  · rintro ⟨row', hrow', hnew, rfl⟩
    obtain ⟨row, hrow, hmoved⟩ := exists_left_of_forall₂ hmoves hrow'
    obtain ⟨old, hne, hold, hnode⟩ := h.exists_names hrow
    obtain ⟨hnew', hsame⟩ := h.moved_at hp hsource hat hrow hold hmoved
    exact ⟨old, hsame ▸ hnode, hnew'.names_eq hnew⟩

end Move

/-- **An entry is moved** with all below it, in the place of something that may be replaced. -/
theorem move (hne : D ≠ []) (hp : (c.prune D hne).Passage S D) (hthere : c.node? S ≠ none)
    {overwrite : Bool} (hold : c.node? D ≠ none → overwrite = true)
    (hempty : c.node? D = some .directory → ∀ name, c.node? (D ++ [name]) = none) :
    ∃ t', t.move (rootText S) (rootText D) overwrite = .ok t' ∧ t'.Shows (.move S D hp) := by
  have hkept : (c.prune D hne).node? S = c.node? S := by
    rw [Catalogue.node?_prune, if_neg hp.dest]
  have hS := c.storable S hthere
  have hD : Storable D := by
    simpa using hp.storable [] (by rwa [List.append_nil, hkept])
  obtain ⟨node, hnode⟩ := Option.ne_none_iff_exists'.mp hthere
  obtain ⟨source, hsource, hfind, hat, -⟩ := h.find_eq_some hp.src_ne hnode
  -- The destination is cleared, and the source is still there.
  have hclear : ∃ mid : Table, mid.Shows (c.prune D hne) ∧ source ∈ mid.rows ∧
      t.move (rootText S) (rootText D) overwrite =
        mid.moveRows source (rootText S) (rootText D) := by
    unfold Table.move
    cases hdest : c.node? D with
    | none =>
      refine ⟨t, (Catalogue.prune_of_none hne hdest).symm ▸ h, hsource, ?_⟩
      simp only [key_eq hS, key_eq hD, hfind, h.find_eq_none hD.neat.ordinary hdest, bind,
        Except.bind]
      rfl
    | some old =>
      obtain ⟨row, -, hfindD, -, -⟩ := h.find_eq_some hne hdest
      obtain ⟨mid, hremove, hmid⟩ : ∃ mid, t.remove row false = .ok mid ∧
          mid.Shows (c.prune D hne) :=
        h.remove hD hne hdest hfindD fun hk => .inr (hempty (hk ▸ hdest))
      obtain ⟨row', hrow', hat', -⟩ := (hmid.row_iff S node hp.src_ne).mp (hkept.trans hnode)
      obtain rfl : row' = source := List.inj_on_of_nodup_map h.exact.nodup
        ((mem_remove_iff hremove).mp hrow').1 hsource
        (hat'.path_eq_rootText.trans hat.path_eq_rootText.symm)
      refine ⟨mid, hmid, hrow', ?_⟩
      simp only [key_eq hS, key_eq hD, hfind, hfindD, hold (by simp [hdest]), if_true, hremove,
        bind, Except.bind]
      rfl
  obtain ⟨mid, hmid, hmem, hmove⟩ := hclear
  rw [hmove]
  exact hmid.moveRows hp hmem hat

end Shows

end Table

/-! ## Disks and tables -/

/-- A disk and a table hold the same: below the root the same paths, each with the same kind,
content and link text. -/
structure SameHoldings (d : Disk) (t : Table) : Prop where
  root : d.homeNode? = some .directory
  entries : (d.listing.map fun e => (rootText e.1, e.2.node)).Perm
    (t.rows.map fun row => (row.path, row.node))

/-- **A disk and a table that keep one catalogue hold the same.** -/
theorem sameHoldings_of_shows {d : Disk} {t : Table} (hd : d.Shows c) (ht : t.Shows c) :
    SameHoldings d t where
  root := (hd.node []).trans c.root
  entries := by
    have hlisting : (d.listing.map fun e => (rootText e.1, e.2.node)).Nodup := by
      refine .of_map Prod.fst ?_
      rw [List.map_map]
      exact hd.nodup_listing
    have hrows : (t.rows.map fun row => (row.path, row.node)).Nodup := by
      refine .of_map Prod.fst ?_
      rw [List.map_map]
      exact ht.exact.nodup
    refine (List.perm_ext_iff_of_nodup hlisting hrows).mpr ?_
    rintro ⟨path, node⟩
    simp only [List.mem_map, Prod.mk.injEq]
    constructor
    · rintro ⟨⟨names, entry⟩, hmem, rfl, rfl⟩
      obtain ⟨hne, hnode⟩ := hd.exists_mem_listing.mp ⟨entry, hmem, rfl⟩
      obtain ⟨row, hrow, hat, hsame⟩ := (ht.row_iff names _ hne).mp hnode
      exact ⟨row, hrow, hat.path_eq_rootText, hsame⟩
    · rintro ⟨row, hrow, rfl, rfl⟩
      obtain ⟨names, hne, hat, hnode⟩ := ht.exists_names hrow
      obtain ⟨entry, hmem, hsame⟩ := hd.exists_mem_listing.mpr ⟨hne, hnode⟩
      exact ⟨(names, entry), hmem, hat.path_eq_rootText.symm, hsame⟩

end MountSpace
