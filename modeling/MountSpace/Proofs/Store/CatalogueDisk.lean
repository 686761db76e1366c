import MountSpace.Proofs.Store.Carried
import MountSpace.Proofs.Store.Catalogue

/-!
# Disks that keep a catalogue

A disk on a host without limits keeps a catalogue in its tree, below its home.  What it reports,
lists and reads is what the catalogue says, and whatever there is room for in the catalogue can be
done on the disk.

## Main definitions

* `Disk.Shows` — the tree below the home is the catalogue.

Main statements: `Disk.Shows.status`, `Disk.Shows.list`, `Disk.Shows.write`,
`Disk.Shows.delete`, `Disk.Shows.move`.
-/

namespace MountSpace

open MountSpace.Path

/-! ## Places that stay distinct -/

namespace HostTree

variable {t : HostTree} {place src dest : Place} {now : Instant}

/-- No place is taken twice. -/
def Distinct (t : HostTree) : Prop := (t.entries.map Prod.fst).Nodup

theorem Distinct.put (h : t.Distinct) (entry : HostEntry) : (t.put place entry).Distinct :=
  nodup_setEntry h

theorem Distinct.touch (h : t.Distinct) : (t.touch now place).Distinct := by
  have hsame : (t.touch now place).entries.map Prod.fst = t.entries.map Prod.fst := by
    unfold HostTree.touch modify
    rw [List.map_map]
    refine List.map_congr_left fun e _ => ?_
    rw [Function.comp_apply]
    split <;> rfl
  rw [Distinct, hsame]
  exact h

theorem Distinct.prune (h : t.Distinct) : (t.prune place).Distinct :=
  h.sublist (List.filter_sublist.map _)

/-- Where nothing is at the destination, no two places are moved to one. -/
theorem rebase_inj {p q : Place} (hp : ¬dest <+: p) (hq : ¬dest <+: q)
    (h : rebase src dest p = rebase src dest q) : p = q := by
  by_cases hsp : src <+: p
  · obtain ⟨rest, rfl⟩ := hsp
    rw [rebase_append] at h
    by_cases hsq : src <+: q
    · obtain ⟨more, rfl⟩ := hsq
      rw [rebase_append] at h
      rw [List.append_cancel_left h]
    · rw [rebase_of_not_below hsq] at h
      exact absurd ⟨rest, h⟩ hq
  · rw [rebase_of_not_below hsp] at h
    by_cases hsq : src <+: q
    · obtain ⟨more, rfl⟩ := hsq
      rw [rebase_append] at h
      exact absurd ⟨more, h.symm⟩ hp
    · rwa [rebase_of_not_below hsq] at h

theorem Distinct.relocate (h : t.Distinct)
    (hfree : ∀ place, dest <+: place → t.find? place = none) :
    (t.relocate src dest).Distinct := by
  have hkeys : ∀ place ∈ t.entries.map Prod.fst, ¬dest <+: place := by
    intro place hplace hp
    obtain ⟨⟨found, entry⟩, hmem, rfl⟩ := List.mem_map.mp hplace
    exact find?_ne_none_iff.mpr ⟨entry, hmem⟩ (hfree _ hp)
  have hsame : (t.relocate src dest).entries.map Prod.fst =
      (t.entries.map Prod.fst).map (rebase src dest) := by
    simp only [HostTree.relocate, List.map_map]
    rfl
  rw [Distinct, hsame]
  exact List.Nodup.map_on (fun p hp q hq => rebase_inj (hkeys p hp) (hkeys q hq)) h

end HostTree

namespace Disk

variable {d : Disk} {c : Catalogue} {names S D : List String} {node : Node} {now : Instant}
variable {text : String} {data content : Bytes}

/-- The disk keeps the catalogue below its home, on a host without limits. -/
structure Shows (d : Disk) (c : Catalogue) : Prop where
  nameBytes : d.tree.limits.nameBytes = none
  textBytes : d.tree.limits.textBytes = none
  distinct : d.tree.Distinct
  node : ∀ names, d.tree.node? (home :: names) = c.node? names

/-- Something lies under the home whose path is too long to be read. -/
def Overlong (d : Disk) : Prop := ∃ entry ∈ d.listing, maxTextLength < (rootText entry.1).length

instance : Decidable d.Overlong :=
  inferInstanceAs (Decidable (∃ entry ∈ d.listing, maxTextLength < (rootText entry.1).length))

theorem mem_listing {entry : HostEntry} : (names, entry) ∈ d.listing ↔
    names ≠ [] ∧ (home :: names, entry) ∈ d.tree.entries := by
  unfold listing
  rw [List.mem_filterMap]
  constructor
  · rintro ⟨⟨place, found⟩, hmem, h⟩
    dsimp only at h
    split at h
    · split at h
      · cases h
        rename_i htop
        exact ⟨by simp, htop ▸ hmem⟩
      · cases h
    · cases h
  · rintro ⟨hne, hmem⟩
    obtain ⟨name, rest, rfl⟩ := List.exists_cons_of_ne_nil hne
    exact ⟨_, hmem, by simp⟩

/-- What arrives at a path that is too long to be read makes the disk overlong. -/
theorem overlong_of_node (hne : names ≠ []) (hnode : d.tree.node? (home :: names) ≠ none)
    (hlong : maxTextLength < (rootText names).length) : d.Overlong := by
  obtain ⟨entry, hmem⟩ := HostTree.find?_ne_none_iff.mp fun hnone =>
    hnode (Option.map_eq_none_iff.mpr hnone)
  exact ⟨(names, entry), mem_listing.mpr ⟨hne, hmem⟩, hlong⟩

/-- A disk with an empty home keeps an empty catalogue. -/
theorem shows_fresh {limits : HostLimits} (hname : limits.nameBytes = none)
    (htext : limits.textBytes = none) (now : Instant) : (fresh limits now).Shows .empty where
  nameBytes := hname
  textBytes := htext
  distinct := nodup_setEntry (List.nodup_singleton _)
  node names := by
    unfold fresh
    by_cases hnil : names = []
    · subst hnil
      exact HostTree.node?_put_self _
    · rw [HostTree.node?_put_of_ne (by simpa using hnil), Catalogue.node?_empty, if_neg hnil]
      simp [HostTree.node?, HostTree.find?, HostTree.bare, List.lookup_cons]

namespace Shows

variable (h : d.Shows c)

include h

theorem refusesWay (way : List String) : d.tree.limits.refusesWay way = false := by
  simp [HostLimits.refusesWay, HostLimits.refusesText, h.textBytes]

theorem refusesName_eq (name : String) : d.tree.limits.refusesName name = false := by
  simp [HostLimits.refusesName, h.nameBytes]

theorem homed : d.Homed where
  ordinary := home_ordinary
  way := h.refusesWay _
  name := by simp [HostLimits.refusesName, h.nameBytes]
  node := by rw [h.node, c.root]

/-! ## Reading -/

/-- What lies under the home is what the catalogue keeps below the root. -/
theorem exists_mem_listing : (∃ entry, (names, entry) ∈ d.listing ∧ entry.node = node) ↔
    names ≠ [] ∧ c.node? names = some node := by
  have hnode : d.tree.node? (home :: names) = some node ↔
      ∃ entry, (home :: names, entry) ∈ d.tree.entries ∧ entry.node = node := by
    rw [HostTree.node?, Option.map_eq_some_iff]
    exact exists_congr fun entry => and_congr_left' (lookup_eq_some_iff_mem h.distinct)
  rw [← h.node, hnode]
  constructor
  · rintro ⟨entry, hmem, hentry⟩
    obtain ⟨hne, hmem⟩ := mem_listing.mp hmem
    exact ⟨hne, entry, hmem, hentry⟩
  · rintro ⟨hne, entry, hmem, hentry⟩
    exact ⟨entry, mem_listing.mpr ⟨hne, hmem⟩, hentry⟩

/-- No path is listed twice. -/
theorem nodup_listing : (d.listing.map fun e => rootText e.1).Nodup := by
  have hplaces : (d.listing.map fun e => home :: e.1).Nodup := by
    refine h.distinct.sublist ?_
    unfold listing
    induction d.tree.entries with
    | nil => exact List.nil_sublist _
    | cons e rest ih =>
      rw [List.filterMap_cons]
      split
      · exact (ih.trans (List.sublist_cons_self _ _))
      · rename_i hlisted
        split at hlisted
        · split at hlisted
          · cases hlisted
            rename_i hplace htop
            simpa [hplace, htop] using ih
          · cases hlisted
        · cases hlisted
  have hordinary : ∀ e ∈ d.listing, ∀ n ∈ e.1, Ordinary n := fun e he =>
    (c.storable e.1 (by simp [(h.exists_mem_listing.mp ⟨e.2, he, rfl⟩).2])).neat.ordinary
  refine (List.Nodup.of_map _ hplaces).map_on fun e he e' he' heq => ?_
  have hnames := rootText_inj (hordinary e he) (hordinary e' he') heq
  exact List.inj_on_of_nodup_map hplaces he he' (by rw [hnames])

/-- The way to what is kept, or could be, is open. -/
theorem isOpen (hdir : c.node? names.dropLast = some .directory) : d.tree.Open home names where
  way := h.refusesWay _
  short _ _ := by simp [HostLimits.refusesName, h.nameBytes]
  directories front hf := by
    rw [h.node]
    exact c.directory_of_prefix hdir hf

theorem way_eq (hs : Storable names) (hdir : c.node? names.dropLast = some .directory) :
    d.way (rootText names) = .ok (home :: names) :=
  way_of_open h.homed hs.read hs.neat.ordinary (h.isOpen hdir)

theorem find?_eq (hnode : c.node? names = some node) :
    ∃ entry, d.tree.find? (home :: names) = some entry ∧ entry.node = node := by
  rwa [← h.node, HostTree.node?_eq_some] at hnode

theorem find?_eq_none : d.tree.find? (home :: names) = none ↔ c.node? names = none := by
  rw [← h.node, HostTree.node?, Option.map_eq_none_iff]

theorem isThere_eq (hs : Storable names) (hdir : c.node? names.dropLast = some .directory) :
    d.tree.isThere (home :: names) = (c.node? names).isSome := by
  unfold HostTree.isThere
  rw [(h.isOpen hdir).stat_eq h.homed hs.neat.ordinary]
  cases hnode : c.node? names with
  | none =>
    rw [h.find?_eq_none.mpr hnode]
    rfl
  | some node =>
    obtain ⟨entry, hfind, -⟩ := h.find?_eq hnode
    rw [hfind]
    rfl

omit h in
/-- A report says what the entry is, and when. -/
theorem report_untimed {path : String} {p : Path} (hread : Path.read path = .ok p)
    (entry : HostEntry) : Status.untimed <$> report path entry = entry.node.told p := by
  obtain ⟨node, accessed, modified⟩ := entry
  unfold Node.told
  cases node with
  | file content =>
    rw [report_file rfl hread]
    rfl
  | directory =>
    rw [report_directory rfl hread]
    rfl
  | link text =>
    cases htext : Path.read text with
    | error e => simp [report, htext, bind, Except.bind, Functor.map, Except.map]
    | ok target =>
      rw [(report_link rfl hread).mpr ⟨target, htext, rfl⟩]
      simp only [htext, bind, Except.bind]
      rfl

/-- **A disk reports what the catalogue says**, times aside. -/
theorem status (hn : Neat names) (hdir : c.node? names.dropLast = some .directory) :
    Option.map Status.untimed <$> d.status (rootText names) = c.status names := by
  unfold Catalogue.status
  cases hread : Path.read (rootText names) with
  | error e =>
    have hway : d.way (rootText names) = .error e := by
      unfold Disk.way
      rw [hread]
      rfl
    unfold Disk.status
    rw [hway]
    rfl
  | ok p =>
    obtain rfl := hn.eq_of_read hread
    rw [status_of_open h.homed hread hn.ordinary (h.isOpen hdir)]
    dsimp only
    cases hnode : c.node? names with
    | none =>
      rw [h.find?_eq_none.mpr hnode]
      rfl
    | some node =>
      obtain ⟨entry, hfind, rfl⟩ := h.find?_eq hnode
      have hreport := report_untimed hread entry
      rw [hfind]
      simp only [bind, Except.bind, ← hreport]
      cases report (rootText names) entry <;> rfl

theorem content_eq (hs : Storable names) (hnode : c.node? names = some (.file content)) :
    d.content (rootText names) = .ok content := by
  have hdir := c.directory_of_dropLast (by simp [hnode] : c.node? names ≠ none)
  obtain ⟨entry, hfind, hentry⟩ := h.find?_eq hnode
  have hplace : d.tree.placeOf true (home :: names) = .ok (home :: names) :=
    (h.isOpen hdir).placeOf_follow_eq h.homed hs.neat.ordinary fun text => by
      rw [h.node, hnode]
      simp
  unfold Disk.content HostTree.read HostTree.stat
  simp only [h.way_eq hs hdir, hplace, hfind, hentry, bind, Except.bind, fromHost,
    Except.mapError]

/-- **A disk lists what the catalogue says.** -/
theorem list (hs : Storable names) (hdir : c.node? names = some .directory) :
    c.Lists names (d.list (rootText names)) := by
  have hfront := c.directory_of_dropLast (by simp [hdir] : c.node? names ≠ none)
  have hopen : d.tree.Open home (settle names) := by
    rw [hs.neat.settle_eq]
    exact h.isOpen hfront
  have hlist := (list_of_open h.homed hs.neat.ordinary hs.read hopen
    (by rw [hs.neat.settle_eq, h.node, hdir])).1
  rw [hs.neat.settle_eq] at hlist
  replace hlist := hlist fun e _ => ⟨h.refusesWay _, h.refusesName_eq _⟩
  set found := d.tree.childrenOf (home :: names)
  have hfind : ∀ name entry, (name, entry) ∈ found ↔
      d.tree.find? (home :: (names ++ [name])) = some entry := by
    intro name entry
    rw [HostTree.mem_childrenOf, List.cons_append]
    exact (lookup_eq_some_iff_mem h.distinct).symm
  have hitems : ∀ name node, c.node? (names ++ [name]) = some node ↔
      ∃ e ∈ found, e.1 = name ∧ e.2.node = node := by
    intro name node
    rw [← h.node, HostTree.node?, Option.map_eq_some_iff]
    constructor
    · rintro ⟨entry, hentry, rfl⟩
      exact ⟨(name, entry), (hfind _ _).mpr hentry, rfl, rfl⟩
    · rintro ⟨⟨name, entry⟩, he, rfl, rfl⟩
      exact ⟨entry, (hfind _ _).mp he, rfl⟩
  have hreport : ∀ e ∈ found, Status.untimed <$>
      report ((⟨{}, names, true⟩ : Path).child [e.1]).localText e.2 =
        e.2.node.told ⟨{}, names ++ [e.1], true⟩ := by
    rintro ⟨name, entry⟩ he
    have hthere : c.node? (names ++ [name]) ≠ none := by
      rw [(hitems name entry.node).mpr ⟨_, he, rfl, rfl⟩]
      simp
    have hstorable := c.storable _ hthere
    rw [child_localText hstorable.neat.ordinary rfl]
    exact report_untimed hstorable.read entry
  rw [hlist]
  cases hreports : (found.mapM _ : Except Error (List Status)) with
  | error e => exact .of_items_error hreport hitems hreports
  | ok reports =>
    exact .of_items hreport hitems (HostTree.nodup_childrenOf h.distinct _) hreports
      (List.mergeSort_perm _ _)
      (Catalogue.Lists.pairwise_mergeSort_name (fun st : Status => st.path.name) reports)

/-! ## Changing the tree -/

theorem touch (now : Instant) (dir : Place) : (⟨d.tree.touch now dir⟩ : Disk).Shows c where
  nameBytes := h.nameBytes
  textBytes := h.textBytes
  distinct := h.distinct.touch
  node names := HostTree.node?_touch.trans (h.node names)

theorem put (hroom : c.Room names node) (entry : HostEntry) (hentry : entry.node = node) :
    (⟨d.tree.put (home :: names) entry⟩ : Disk).Shows (.put names node hroom) where
  nameBytes := h.nameBytes
  textBytes := h.textBytes
  distinct := h.distinct.put entry
  node other := by
    rw [Catalogue.node?_put]
    split
    · rename_i heq
      rw [heq, HostTree.node?_put_self, hentry]
    · rename_i hne
      rw [HostTree.node?_put_of_ne (by simpa using hne), h.node]

theorem prune (hne : names ≠ []) :
    (⟨d.tree.prune (home :: names)⟩ : Disk).Shows (c.prune names hne) where
  nameBytes := h.nameBytes
  textBytes := h.textBytes
  distinct := h.distinct.prune
  node other := by
    rw [Catalogue.node?_prune, HostTree.node?_prune, h.node]
    simp only [List.isPrefixOf_iff_prefix, List.prefix_cons_inj]

theorem relocate (hp : c.Passage S D) :
    (⟨d.tree.relocate (home :: S) (home :: D)⟩ : Disk).Shows (.move S D hp) := by
  have hfree : ∀ place, home :: D <+: place → d.tree.find? place = none := by
    rintro place ⟨rest, rfl⟩
    exact h.find?_eq_none.mpr (c.none_of_append hp.free rest)
  refine ⟨h.nameBytes, h.textBytes, h.distinct.relocate hfree, fun other => ?_⟩
  rw [Catalogue.node?_move, HostTree.node?]
  by_cases hD : D <+: other
  · obtain ⟨rest, rfl⟩ := hD
    rw [if_pos (List.prefix_append _ _), List.drop_left, ← List.cons_append,
      HostTree.find?_relocate_append hfree, ← h.node]
    rfl
  rw [if_neg hD]
  by_cases hS : S <+: other
  · rw [if_pos hS, Option.map_eq_none_iff]
    by_contra hthere
    obtain ⟨old, -, hold⟩ := HostTree.relocate_ne_none_iff.mp hthere
    -- Whatever is moved arrives below the destination, and what is not was not below the source.
    by_cases hin : home :: S <+: old
    · obtain ⟨rest, rfl⟩ := hin
      rw [HostTree.rebase_append, List.cons_append] at hold
      exact hD ⟨rest, (List.cons.inj hold).2⟩
    · rw [HostTree.rebase_of_not_below hin] at hold
      exact hin (hold ▸ (List.prefix_cons_inj home).mpr hS)
  · rw [if_neg hS, HostTree.find?_relocate, ← h.node, HostTree.node?]
    · rwa [List.prefix_cons_inj]
    · rwa [List.prefix_cons_inj]

/-! ## Writing -/

theorem holder_eq (hs : Storable names) (hne : names ≠ [])
    (hdir : c.node? names.dropLast = some .directory) :
    d.tree.holder (home :: names) = .ok (home :: names.dropLast, names.getLast hne) ∧
      HostTree.isDots (names.getLast hne) = false ∧
      home :: names.dropLast ++ [names.getLast hne] = home :: names := by
  refine ⟨(h.isOpen hdir).holder_eq h.homed hs.neat.ordinary hne, ?_, ?_⟩
  · exact HostTree.isDots_of_ordinary (hs.neat.ordinary _ (List.getLast_mem hne))
  · rw [List.cons_append, List.dropLast_append_getLast]

/-- **A file is written** where there is room for it. -/
theorem write (hroom : c.Room names (.file data)) {overwrite : Bool}
    (hold : overwrite = true ∨ c.node? names = none) (now : Instant) :
    ∃ d', d.write now (rootText names) data overwrite = (.ok (), d') ∧
      d'.Shows (.put names (.file data) hroom) := by
  obtain ⟨hholder, hdots, hplace⟩ := h.holder_eq hroom.storable hroom.ne_nil hroom.dir
  have hkeep : (!overwrite && d.tree.isThere (home :: names)) = false := by
    rw [h.isThere_eq hroom.storable hroom.dir]
    rcases hold with rfl | hnone
    · rfl
    · simp [hnone]
  have hnode : ((d.tree.touch now (home :: names.dropLast)).find? (home :: names)).map
      HostEntry.node ≠ some .directory := by
    change HostTree.node? _ _ ≠ _
    rw [HostTree.node?_touch, h.node]
    exact hroom.free
  have hreplace : d.tree.replaceFile now (home :: names) data = (.ok (),
      (d.tree.touch now (home :: names.dropLast)).put (home :: names)
        ((Node.file data).fresh now)) := by
    unfold HostTree.replaceFile
    rw [hholder]
    dsimp only
    rw [hdots, hplace, if_neg Bool.false_ne_true, if_neg]
    · split
      · rename_i hdirectory
        exact absurd hdirectory hnode
      · rfl
    · exact Bool.eq_false_iff.mp (h.refusesName_eq _)
  refine ⟨_, ?_, (h.touch now (home :: names.dropLast)).put hroom
    ((Node.file data).fresh now) rfl⟩
  unfold Disk.write
  rw [h.way_eq hroom.storable hroom.dir]
  dsimp only
  rw [hkeep, if_neg Bool.false_ne_true, hreplace]
  rfl

/-- Bytes are appended to a file. -/
theorem append (hs : Storable names) (hnode : c.node? names = some (.file content))
    (hroom : c.Room names (.file (content ++ data))) (now : Instant) :
    ∃ d', d.append now (rootText names) data = .ok d' ∧
      d'.Shows (.put names (.file (content ++ data)) hroom) := by
  obtain ⟨⟨node, accessed, modified⟩, hfind, hentry⟩ := h.find?_eq hnode
  obtain rfl : node = .file content := hentry
  have hplace : d.tree.placeOf true (home :: names) = .ok (home :: names) :=
    (h.isOpen hroom.dir).placeOf_follow_eq h.homed hs.neat.ordinary fun text => by
      rw [h.node, hnode]
      simp
  refine ⟨_, ?_, h.put hroom ⟨.file (content ++ data), accessed,
    if data.isEmpty then modified else now⟩ rfl⟩
  unfold Disk.append HostTree.append HostTree.stat
  simp only [h.way_eq hs hroom.dir, hplace, hfind, bind, Except.bind]
  rfl

/-- A new entry is made where nothing is kept. -/
theorem create (hroom : c.Room names node) (hnone : c.node? names = none) (now : Instant) :
    ∃ t', d.tree.create now (home :: names) node = .ok t' ∧
      (⟨t'⟩ : Disk).Shows (.put names node hroom) := by
  obtain ⟨hholder, hdots, hplace⟩ := h.holder_eq hroom.storable hroom.ne_nil hroom.dir
  have hvacancy : d.tree.vacancy (home :: names) = .ok (home :: names) :=
    HostTree.vacancy_eq_ok.mpr
      ⟨_, _, hholder, hdots, h.refusesName_eq _, h.find?_eq_none.mpr hnone, hplace.symm⟩
  refine ⟨_, ?_, (h.put hroom (node.fresh now) rfl).touch now (home :: names).dropLast⟩
  unfold HostTree.create
  simp only [hvacancy, bind, Except.bind]
  rfl

/-- **A directory is made** where there is room for it. -/
theorem makeDirectory (hroom : c.Room names .directory) (hnone : c.node? names = none)
    (now : Instant) : ∃ d', d.makeDirectory now (rootText names) = .ok d' ∧
      d'.Shows (.put names .directory hroom) := by
  obtain ⟨t', hcreate, hshows⟩ := h.create hroom hnone now
  refine ⟨_, ?_, hshows⟩
  unfold Disk.makeDirectory HostTree.makeDirectory
  simp only [h.way_eq hroom.storable hroom.dir, hcreate, bind, Except.bind]
  rfl

/-- **A link is made** where there is room for it. -/
theorem makeLink (hroom : c.Room names (.link text)) (hnone : c.node? names = none)
    (hzero : ∀ char ∈ text.toList, char.toNat ≠ 0) (now : Instant) :
    ∃ d', d.makeLink now (rootText names) text = .ok d' ∧
      d'.Shows (.put names (.link text) hroom) := by
  obtain ⟨t', hcreate, hshows⟩ := h.create hroom hnone now
  have hclean : text.toList.any (·.toNat == 0) = false := by
    simpa [List.any_eq_false] using hzero
  have hlong : d.tree.limits.refusesText text.utf8ByteSize = false := by
    simp [HostLimits.refusesText, h.textBytes]
  refine ⟨_, ?_, hshows⟩
  unfold Disk.makeLink HostTree.makeLink
  simp only [h.way_eq hroom.storable hroom.dir, hclean, hlong, (hroom.texts text rfl).1, hcreate,
    bind, Except.bind]
  rfl

/-! ## Taking away and moving -/

theorem isEmptyAt_eq (hs : ∀ name, c.node? (names ++ [name]) = none) :
    d.tree.isEmptyAt (home :: names) = true := by
  rw [HostTree.isEmptyAt, Bool.not_eq_true', List.any_eq_false]
  rintro ⟨place, entry⟩ hmem hbelow
  rw [Bool.and_eq_true, List.isPrefixOf_iff_prefix, bne_iff_ne] at hbelow
  obtain ⟨⟨rest, rfl⟩, hne⟩ := hbelow
  cases rest with
  | nil => simp at hne
  | cons name rest =>
    have hnone := c.none_of_append (hs name) rest
    rw [List.append_assoc] at hnone
    exact HostTree.find?_ne_none_iff.mpr ⟨entry, hmem⟩ (h.find?_eq_none.mpr hnone)

theorem remove (hs : Storable names) (hne : names ≠ []) (hnode : c.node? names = some node)
    {recursive : Bool}
    (hempty : node = .directory → recursive = true ∨ ∀ name, c.node? (names ++ [name]) = none)
    (now : Instant) (path : String) :
    ∃ d', d.remove now path (home :: names) recursive = (.ok (), d') ∧
      d'.Shows (c.prune names hne) := by
  have hdir := c.directory_of_dropLast (by simp [hnode] : c.node? names ≠ none)
  obtain ⟨hholder, hdots, hplace⟩ := h.holder_eq hs hne hdir
  obtain ⟨entry, hfind, rfl⟩ := h.find?_eq hnode
  have hstat := (h.isOpen hdir).stat_eq h.homed hs.neat.ordinary
  rw [hfind] at hstat
  have hshows := (h.prune hne).touch now (home :: names.dropLast)
  refine ⟨_, ?_, hshows⟩
  unfold Disk.remove
  rw [hstat]
  dsimp only
  by_cases hall : entry.node = .directory ∧ recursive = true
  · unfold HostTree.removeTree
    rw [if_pos hall, hholder]
    dsimp only
    rw [hdots, hplace]
    rfl
  rw [if_neg hall]
  by_cases hk : entry.node = .directory
  · have hnothing := h.isEmptyAt_eq
      ((hempty hk).resolve_left fun hrec => hall ⟨hk, hrec⟩)
    unfold HostTree.removeDirectory
    simp only [hk, hholder, hdots, hplace, hnothing, bind, Except.bind]
    rfl
  · have hat := (h.isOpen hdir).placeOf_eq h.homed hs.neat.ordinary
    unfold HostTree.unlink
    rw [if_neg hk, hat, ← List.dropLast_cons_of_ne_nil hne]
    rfl

/-- **An entry is deleted** that is there, unless it is a directory that holds something and all
is not to be taken along. -/
theorem delete (hs : Storable names) (hne : names ≠ []) (hnode : c.node? names = some node)
    {recursive : Bool}
    (hempty : node = .directory → recursive = true ∨ ∀ name, c.node? (names ++ [name]) = none)
    (now : Instant) : ∃ d', d.delete now (rootText names) recursive = (.ok true, d') ∧
      d'.Shows (c.prune names hne) := by
  have hdir := c.directory_of_dropLast (by simp [hnode] : c.node? names ≠ none)
  obtain ⟨d', hremove, hshows⟩ := h.remove hs hne hnode hempty now (rootText names)
  refine ⟨d', ?_, hshows⟩
  unfold Disk.delete
  rw [h.way_eq hs hdir]
  dsimp only
  rw [h.isThere_eq hs hdir, hnode, hremove]
  rfl

/-- The destination of a move is cleared. -/
theorem clear (hD : Storable D) (hne : D ≠ []) (hdir : c.node? D.dropLast = some .directory)
    (hold : c.node? D = some .directory → ∀ name, c.node? (D ++ [name]) = none) (now : Instant)
    (path : String) : ∃ d', (if d.tree.isThere (home :: D) then d.remove now path (home :: D) false
        else (.ok (), d)) = (.ok (), d') ∧ d'.Shows (c.prune D hne) := by
  rw [h.isThere_eq hD hdir]
  cases hnode : c.node? D with
  | none =>
    refine ⟨d, rfl, ?_⟩
    rwa [Catalogue.prune_of_none hne hnode]
  | some node =>
    exact h.remove hD hne hnode (fun hk => .inr (hold (hk ▸ hnode))) now path

section Move

variable (hne : D ≠ []) (hp : (c.prune D hne).Clear S D) (hD : Storable D)
  (hthere : c.node? S ≠ none) {overwrite : Bool} (hold : c.node? D ≠ none → overwrite = true)
  (hempty : c.node? D = some .directory → ∀ name, c.node? (D ++ [name]) = none) (now : Instant)

include hp hD hthere hold hempty

/-- A move clears its destination, relocates the entry, and touches the two directories. -/
theorem move_eq : ∃ (mid : Disk) (srcDir destDir : Place), mid.Shows (c.prune D hne) ∧
    d.move now (rootText S) (rootText D) overwrite =
      (.ok (), ⟨((mid.tree.relocate (home :: S) (home :: D)).touch now srcDir).touch now
        destDir⟩) := by
  have hkept : (c.prune D hne).node? S = c.node? S := by
    rw [Catalogue.node?_prune, if_neg hp.dest]
  have hS := c.storable S hthere
  have hSdir := c.directory_of_dropLast hthere
  have hDdir : c.node? D.dropLast = some .directory := by
    have hdir := hp.dir
    rw [Catalogue.node?_prune] at hdir
    split at hdir
    · cases hdir
    · exact hdir
  obtain ⟨mid, hclear, hmid⟩ := h.clear hD hne hDdir hempty now (rootText D)
  have hkeep : (d.tree.isThere (home :: D) && !overwrite) = false := by
    rw [h.isThere_eq hD hDdir]
    cases hnode : c.node? D with
    | none => rfl
    | some node => simp [hold (by simp [hnode])]
  have hmidS := (c.prune D hne).directory_of_dropLast (by rwa [hkept])
  obtain ⟨t', hmove⟩ : ∃ t', mid.tree.move now (home :: S) (home :: D) = .ok t' :=
    HostTree.Base.move_of_open hmid.homed (hmid.isOpen hmidS) (hmid.isOpen hp.dir)
      hS.neat.ordinary hD.neat.ordinary (by rwa [ne_eq, hmid.find?_eq_none, hkept]) hp.src
      hp.dest now
  obtain ⟨srcDir, srcName, destDir, destName, hsrc, hdest, -, -, -, -, rfl⟩ :=
    HostTree.relocate_of_move hmove
  obtain ⟨hsrc', -, hsplace⟩ := hmid.holder_eq hS hp.src_ne hmidS
  obtain ⟨hdest', -, hdplace⟩ := hmid.holder_eq hD hne hp.dir
  cases hsrc.symm.trans hsrc'
  cases hdest.symm.trans hdest'
  rw [hsplace, hdplace] at hmove
  refine ⟨mid, home :: S.dropLast, home :: D.dropLast, hmid, ?_⟩
  unfold Disk.move
  rw [h.way_eq hS hSdir, h.way_eq hD hDdir]
  dsimp only
  rw [hkeep, if_neg Bool.false_ne_true, hclear]
  dsimp only
  rw [hmove]

/-- Everything that is moved arrives, even if its path is too long to be read. -/
theorem move_arrives : ∃ d', d.move now (rootText S) (rootText D) overwrite = (.ok (), d') ∧
    ∀ rest, d'.tree.node? (home :: (D ++ rest)) = c.node? (S ++ rest) := by
  obtain ⟨mid, srcDir, destDir, hmid, hmove⟩ := h.move_eq hne hp hD hthere hold hempty now
  refine ⟨_, hmove, fun rest => ?_⟩
  have hfree : ∀ place, home :: D <+: place → mid.tree.find? place = none := by
    rintro place ⟨more, rfl⟩
    exact hmid.find?_eq_none.mpr ((c.prune D hne).none_of_append hp.free more)
  have hout : ¬D <+: S ++ rest := fun hin =>
    (List.prefix_or_prefix_of_prefix hin (List.prefix_append _ _)).elim hp.dest hp.src
  rw [HostTree.node?_touch, HostTree.node?_touch, HostTree.node?, ← List.cons_append,
    HostTree.find?_relocate_append hfree, List.cons_append, ← HostTree.node?, hmid.node,
    Catalogue.node?_prune, if_neg hout]

end Move

/-- **An entry is moved** with all below it, in the place of something that may be replaced. -/
theorem move (hne : D ≠ []) (hp : (c.prune D hne).Passage S D) (hthere : c.node? S ≠ none)
    {overwrite : Bool} (hold : c.node? D ≠ none → overwrite = true)
    (hempty : c.node? D = some .directory → ∀ name, c.node? (D ++ [name]) = none)
    (now : Instant) : ∃ d', d.move now (rootText S) (rootText D) overwrite = (.ok (), d') ∧
      d'.Shows (.move S D hp) := by
  have hD : Storable D := by
    have hkept : (c.prune D hne).node? S ≠ none := by
      rwa [Catalogue.node?_prune, if_neg hp.dest]
    simpa using hp.storable [] (by rwa [List.append_nil])
  obtain ⟨mid, srcDir, destDir, hmid, hmove⟩ :=
    h.move_eq hne hp.toClear hD hthere hold hempty now
  exact ⟨_, hmove, ((hmid.relocate hp).touch now srcDir).touch now destDir⟩

end Shows

end Disk

end MountSpace
