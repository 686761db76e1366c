import MountSpace.Proofs.Store.Grounded
import MountSpace.Proofs.Store.Links
import Mathlib.Data.List.Nodup

/-!
# What a move carries

A move is to bring an entry, with all below it, from one path to another, and to lose nothing.  Two
paths can get in each other's way without being one above the other: the store reads them again from
their texts, and the prefix match of a table does not see the case of letters.  As long as they do
not, a store that refuses a move is as it was, and one that makes it reports at the destination and
below it what it reported at the source and below it, as far as no path becomes too long.

## Main definitions

* `View`, `Disk.view`, `Table.view` — what a store tells of its entries.
* `View.Carried` — what was at one path is at another.
* `Disk.Tangled`, `Table.Tangled` — two paths between which a move loses something.
* `Table.Conflict` — what makes it lose something in a table.
* `HostTree.Relocated` — what a move leaves behind on the host.

Main statements: `Disk.Homed.carried_of_move`, `Table.carried_of_move`.
-/

namespace MountSpace

open MountSpace.Path

/-! ## Views -/

/-- What a store tells of its entries. -/
structure View where
  /-- What is reported of the entry at a path. -/
  status : String → Except Error (Option Status)
  /-- What the entry is that is kept under names: its kind, with its content or its text. -/
  node? : List String → Option Node
  /-- Whether the path of these names is short enough to be asked for. -/
  Fits : List String → Prop

/-- What was at the path `src` is at the path `dest`, and nothing is at `src` unless both are the
paths of one entry. -/
structure View.Carried (before after : View) (src dest : List String) : Prop where
  /-- The entry is reported as before, under its new path. -/
  arrives : ∀ st, before.status (rootText src) = .ok (some st) →
    ∃ st', after.status (rootText dest) = .ok (some st') ∧ st.SameEntry st'
  /-- Whatever is reported below a directory is reported at the same address below its new path, as
  far as that makes no path that is too long. -/
  below : before.node? (settle src) = some .directory → ∀ more, Inward more →
    before.Fits (settle dest ++ more) →
    ∀ st, before.status (rootText (settle src ++ more)) = .ok (some st) →
      ∃ st', after.status (rootText (settle dest ++ more)) = .ok (some st') ∧ st.SameEntry st'
  /-- The entry, and with a directory all below it, is what it was. -/
  whole : ∀ rest, (∀ n ∈ rest, Ordinary n) →
    (rest = [] ∨ before.node? (settle src) = some .directory) →
    ∀ node, before.node? (settle src ++ rest) = some node →
      after.node? (settle dest ++ rest) = some node
  /-- Nothing is reported at the source any more. -/
  leaves : settle src = settle dest ∨ after.status (rootText src) = .ok none

/-- Nothing has moved. -/
theorem View.Carried.refl (v : View) (names : List String) : v.Carried v names names :=
  ⟨fun st h => ⟨st, h, .refl st⟩, fun _ _ _ _ st h => ⟨st, h, .refl st⟩, fun _ _ _ _ h => h,
    .inl rfl⟩

/-! ## Moving on the host -/

namespace HostTree

variable {t t' : HostTree} {src dest place : Place} {S D : List String} {base : String}
variable {now : Instant}

theorem not_prefix_append {front names rest : List String} (h : ¬front <+: names)
    (h' : ¬names <+: front) : ¬front <+: names ++ rest := fun hp =>
  (List.prefix_or_prefix_of_prefix hp (List.prefix_append _ _)).elim h h'

theorem prefix_dropLast_of_ne {front names : List String} (h : front <+: names)
    (hne : front ≠ names) : front <+: names.dropLast := by
  refine List.prefix_of_prefix_length_le h (List.dropLast_prefix names) ?_
  have hlen : front.length ≠ names.length := fun heq => hne (h.eq_of_length heq)
  have := h.length_le
  rw [List.length_dropLast]
  omega

theorem not_prefix_of_dropLast {front names : List String} (h : front <+: names.dropLast)
    (hne : names ≠ []) : ¬names <+: front := by
  intro hp
  have hlen := (hp.trans h).length_le
  have hpos := List.length_pos_iff.mpr hne
  rw [List.length_dropLast] at hlen
  omega

/-- Below a destination that was free is what was below the source. -/
theorem find?_relocate_append (hfree : ∀ place, dest <+: place → t.find? place = none)
    (rest : Place) : (t.relocate src dest).find? (dest ++ rest) = t.find? (src ++ rest) := by
  have hkeys : ∀ e ∈ t.entries, ¬dest <+: e.1 := fun e he hp =>
    find?_ne_none_iff.mpr ⟨e.2, he⟩ (hfree e.1 hp)
  unfold find? relocate
  dsimp only
  generalize t.entries = entries at hkeys
  induction entries with
  | nil => rfl
  | cons e entries ih =>
    obtain ⟨key, entry⟩ := e
    rw [List.map_cons, List.lookup_cons, List.lookup_cons,
      ih fun e he => hkeys e (List.mem_cons_of_mem _ he)]
    dsimp only
    have hkey : (dest ++ rest == rebase src dest key) = (src ++ rest == key) := by
      by_cases hin : src <+: key
      · obtain ⟨more, rfl⟩ := hin
        rw [rebase_append, Bool.eq_iff_iff]
        simp
      · rw [rebase_of_not_below hin, beq_eq_false_iff_ne.mpr, beq_eq_false_iff_ne.mpr]
        · rintro rfl
          exact hin (List.prefix_append _ _)
        · rintro rfl
          exact hkeys _ List.mem_cons_self (List.prefix_append _ _)
    rw [hkey]

/-- Nothing is left at the source of a move. -/
theorem find?_relocate_src (h : ¬dest <+: src) : (t.relocate src dest).find? src = none := by
  by_contra hsrc
  obtain ⟨old, -, hold⟩ := relocate_ne_none_iff.mp hsrc
  by_cases hin : src <+: old
  · obtain ⟨rest, rfl⟩ := hin
    rw [rebase_append] at hold
    exact h ⟨rest, hold⟩
  · rw [rebase_of_not_below hin] at hold
    exact hin (hold ▸ List.prefix_rfl)

/-- What stood at the end of one way below a base, and below it, stands at the end of another, and
directories still lead to both. -/
structure Relocated (t t' : HostTree) (base : String) (S D : List String) : Prop where
  limits : t'.limits = t.limits
  rooted : t'.Base base
  src_open : t'.Open base S
  dest_open : t'.Open base D
  left : t'.find? (base :: S) = none
  found : ∀ rest, t'.node? (base :: (D ++ rest)) = t.node? (base :: (S ++ rest))

theorem Base.relocated_of_move (hb : t.Base base) (hs : t.Straight [base] S)
    (hd : t.Straight [base] D) (hS : ∀ n ∈ S, Ordinary n) (hD : ∀ n ∈ D, Ordinary n)
    (hfree : ∀ place, base :: D <+: place → t.find? place = none)
    (hm : t.move now (base :: S) (base :: D) = .ok t') : t.Relocated t' base S D := by
  obtain ⟨srcDir, srcName, destDir, destName, hsh, hdh, hsshort, hdshort, hthere, hout, rfl⟩ :=
    relocate_of_move hm
  have hsrcOpen := hb.open_of_holder hs hS hsh hsshort
  have hdestOpen := hb.open_of_holder hd hD hdh hdshort
  have hsplace := hb.append_of_holder hs hS hsh
  have hdplace := hb.append_of_holder hd hD hdh
  have hdestDir : destDir = (base :: D).dropLast := by rw [← hdplace, List.dropLast_concat]
  rw [hsplace] at hthere hout ⊢
  rw [hdplace]
  -- Neither end lies above the other.
  have hDS : ¬D <+: S := fun hp => by
    rw [hfree _ ((List.prefix_cons_inj base).mpr hp)] at hthere
    cases hthere
  have hSD : ¬S <+: D := fun hp => by
    refine hout (hdestDir ▸ prefix_dropLast_of_ne ((List.prefix_cons_inj base).mpr hp) ?_)
    intro heq
    exact hDS ((List.cons.inj heq).2 ▸ List.prefix_rfl)
  have hSne : S ≠ [] := fun hnil => hSD (hnil ▸ List.nil_prefix)
  have hDne : D ≠ [] := fun hnil => hDS (hnil ▸ List.nil_prefix)
  have hstays : ∀ {front}, ¬S <+: front → ¬D <+: front →
      (((t.relocate (base :: S) (base :: D)).touch now srcDir).touch now destDir).node?
        (base :: front) = t.node? (base :: front) := by
    intro front hnS hnD
    rw [node?_touch, node?_touch, node?, node?, find?_relocate]
    · rwa [List.prefix_cons_inj]
    · rwa [List.prefix_cons_inj]
  refine ⟨rfl, ⟨hb.ordinary, hb.way, hb.name, ?_⟩,
    ⟨hsrcOpen.way, hsrcOpen.short, fun front hf => ?_⟩,
    ⟨hdestOpen.way, hdestOpen.short, fun front hf => ?_⟩, ?_, fun rest => ?_⟩
  · rw [hstays (by simpa using hSne) (by simpa using hDne)]
    exact hb.node
  · rw [hstays (not_prefix_of_dropLast hf hSne)
      fun hp => hDS (hp.trans (prefix_of_prefix_dropLast hf))]
    exact hsrcOpen.directories front hf
  · rw [hstays (fun hp => hSD (hp.trans (prefix_of_prefix_dropLast hf)))
      (not_prefix_of_dropLast hf hDne)]
    exact hdestOpen.directories front hf
  · have hgone : (((t.relocate (base :: S) (base :: D)).touch now srcDir).touch now destDir).node?
        (base :: S) = none := by
      rw [node?_touch, node?_touch, node?, find?_relocate_src (by rwa [List.prefix_cons_inj])]
      rfl
    rwa [node?, Option.map_eq_none_iff] at hgone
  · rw [node?_touch, node?_touch, node?, node?, ← List.cons_append, ← List.cons_append,
      find?_relocate_append hfree]

/-- What was open below the source is open below the destination, unless the way there is too
long. -/
theorem Relocated.open_below (h : t.Relocated t' base S D) {rest : List String} (hne : rest ≠ [])
    (hopen : t.Open base (S ++ rest)) (hway : t.limits.refusesWay (base :: (D ++ rest)) = false) :
    t'.Open base (D ++ rest) where
  way := h.limits ▸ hway
  short n hn := by
    rcases List.mem_append.mp hn with hn | hn
    · exact h.dest_open.short n hn
    · exact h.limits ▸ hopen.short n (List.mem_append_right _ hn)
  directories front hf := by
    rw [List.dropLast_append_of_ne_nil hne] at hf
    rcases List.prefix_or_prefix_of_prefix hf (List.prefix_append D _) with hD | ⟨more, rfl⟩
    · by_cases heq : front = D
      · rw [heq]
        have hdir := hopen.directories S (by
          rw [List.dropLast_append_of_ne_nil hne]
          exact List.prefix_append _ _)
        have hfound := h.found []
        rw [List.append_nil, List.append_nil, hdir] at hfound
        exact hfound
      · exact h.dest_open.directories front (prefix_dropLast_of_ne hD heq)
    · rw [h.found]
      refine hopen.directories _ ?_
      rw [List.dropLast_append_of_ne_nil hne]
      exact (List.prefix_append_right_inj S).mpr ((List.prefix_append_right_inj D).mp hf)

/-- Below a place that counts as empty nothing stands. -/
theorem eq_of_isEmptyAt (h : t.isEmptyAt src = true) (hp : src <+: place)
    (hthere : t.find? place ≠ none) : place = src := by
  obtain ⟨entry, hmem⟩ := find?_ne_none_iff.mp hthere
  rw [isEmptyAt, Bool.not_eq_true', List.any_eq_false] at h
  have hplace := h _ hmem
  rw [List.isPrefixOf_iff_prefix.mpr hp] at hplace
  simpa using hplace

theorem exists_below_of_isEmptyAt (h : t.isEmptyAt [base] = false) :
    ∃ names entry, names ≠ [] ∧ t.find? (base :: names) = some entry := by
  rw [isEmptyAt, Bool.not_eq_false', List.any_eq_true] at h
  obtain ⟨⟨place, entry⟩, hmem, hbelow⟩ := h
  rw [Bool.and_eq_true, List.isPrefixOf_iff_prefix, bne_iff_ne] at hbelow
  obtain ⟨⟨names, rfl⟩, hne⟩ := hbelow
  obtain ⟨found, hfind⟩ := Option.ne_none_iff_exists'.mp (find?_ne_none_iff.mpr ⟨entry, hmem⟩)
  exact ⟨names, found, by simpa using hne, hfind⟩

theorem Open.of_prune (h : t.Open base S) (hSD : ¬D <+: S.dropLast) (now : Instant) (dir : Place) :
    ((t.prune (base :: D)).touch now dir).Open base S where
  way := h.way
  short := h.short
  directories front hf := by
    rw [node?_touch, node?_prune, if_neg]
    · exact h.directories front hf
    · rw [List.isPrefixOf_iff_prefix, List.prefix_cons_inj]
      exact fun hp => hSD (hp.trans hf)

/-- Between two open ways neither of which leads along the other, a move succeeds. -/
theorem Base.move_of_open (hb : t.Base base) (hs : t.Open base S) (hd : t.Open base D)
    (hS : ∀ n ∈ S, Ordinary n) (hD : ∀ n ∈ D, Ordinary n) (hthere : t.find? (base :: S) ≠ none)
    (hSD : ¬S <+: D) (hDS : ¬D <+: S) (now : Instant) :
    ∃ t', t.move now (base :: S) (base :: D) = .ok t' := by
  have hSne : S ≠ [] := fun hnil => hSD (hnil ▸ List.nil_prefix)
  have hDne : D ≠ [] := fun hnil => hDS (hnil ▸ List.nil_prefix)
  have hdots : ∀ {names : List String} (hn : ∀ n ∈ names, Ordinary n) (hne : names ≠ []),
      isDots (names.getLast hne) = false := fun hn hne =>
    isDots_of_ordinary (hn _ (List.getLast_mem hne))
  have hout : (base :: S).isPrefixOf (base :: D.dropLast) = false := by
    rw [Bool.eq_false_iff, ne_eq, List.isPrefixOf_iff_prefix, List.prefix_cons_inj]
    exact fun hp => hSD (prefix_of_prefix_dropLast hp)
  have hplace : ∀ {names : List String} (hne : names ≠ []),
      base :: names.dropLast ++ [names.getLast hne] = base :: names := fun hne => by
    rw [List.cons_append, List.dropLast_append_getLast]
  unfold HostTree.move
  simp only [hs.holder_eq hb hS hSne, hd.holder_eq hb hD hDne, bind, Except.bind, hplace,
    hdots hS hSne, hdots hD hDne, hs.short _ (List.getLast_mem hSne),
    hd.short _ (List.getLast_mem hDne), hout, Option.isNone_iff_eq_none, hthere]
  exact ⟨_, rfl⟩

/-- Once what stands at the destination is taken away, a move brings there what the source was,
unless one of them lies above the other. -/
theorem Base.relocated_of_prune (hb : t.Base base) (hs : t.Open base S)
    (hd : t.Open base D) (hS : ∀ n ∈ S, Ordinary n) (hD : ∀ n ∈ D, Ordinary n)
    (hthere : t.find? (base :: S) ≠ none) (hSD : ¬S <+: D) (hDS : ¬D <+: S) (now : Instant)
    (dir : Place) :
    ∃ mid t', mid = (t.prune (base :: D)).touch now dir ∧
      mid.move now (base :: S) (base :: D) = .ok t' ∧ t.Relocated t' base S D := by
  have hDne : D ≠ [] := fun hnil => hDS (hnil ▸ List.nil_prefix)
  have hkept : ∀ rest, ((t.prune (base :: D)).touch now dir).node? (base :: (S ++ rest)) =
      t.node? (base :: (S ++ rest)) := by
    intro rest
    rw [node?_touch, node?_prune, if_neg]
    rw [List.isPrefixOf_iff_prefix, List.prefix_cons_inj]
    exact not_prefix_append hDS hSD
  have hfree : ∀ place, base :: D <+: place →
      ((t.prune (base :: D)).touch now dir).find? place = none := by
    intro place hp
    rw [← Option.map_eq_none_iff, ← node?, node?_touch, node?_prune,
      if_pos (List.isPrefixOf_iff_prefix.mpr hp)]
  have hthere' : ((t.prune (base :: D)).touch now dir).find? (base :: S) ≠ none := by
    have hnode := hkept []
    rw [List.append_nil] at hnode
    rwa [ne_eq, ← Option.map_eq_none_iff, ← node?, hnode, node?, Option.map_eq_none_iff]
  have hbase : ((t.prune (base :: D)).touch now dir).Base base := hb.prune hDne
  have hs' := hs.of_prune (fun hp => hDS (prefix_of_prefix_dropLast hp)) now dir
  have hd' := hd.of_prune (fun hp => not_prefix_of_dropLast hp hDne List.prefix_rfl) now dir
  obtain ⟨t', hm⟩ := hbase.move_of_open hs' hd' hS hD hthere' hSD hDS now
  have hrelocated := hbase.relocated_of_move hs'.straight hd'.straight hS hD hfree hm
  exact ⟨_, t', rfl, hm, { hrelocated with
    found := fun rest => (hrelocated.found rest).trans (hkept rest) }⟩

end HostTree

/-! ## Moving on a disk -/

namespace Disk

variable {d d' : Disk} {now : Instant} {S D names : List String} {overwrite : Bool}
variable {path : String}

/-- What a disk tells of its entries. -/
def view (d : Disk) : View where
  status := d.status
  node? names := d.tree.node? (home :: names)
  Fits names := (rootText names).length ≤ maxTextLength ∧
    d.tree.limits.refusesWay (home :: settle names) = false

/-- What stands at the destination is to be taken away and can be, and the destination is the source
or lies below it, as the paths are read. -/
def Tangled (d : Disk) (src dest : List String) (overwrite : Bool) : Prop :=
  overwrite = true ∧ settle src <+: settle dest ∧
    ∃ entry, d.tree.find? (home :: settle dest) = some entry ∧
      (entry.node = .directory → d.tree.isEmptyAt (home :: settle dest) = true)

/-- What is there at the end of a way is what stands at the place that the way spells. -/
theorem Homed.open_of_isThere (h : d.Homed) (hs : d.tree.Straight [home] names)
    (ho : ∀ n ∈ names, Ordinary n) (hthere : d.tree.isThere (home :: names) = true) :
    d.tree.Open home names ∧ ∃ entry, d.tree.find? (home :: names) = some entry ∧
      d.tree.stat false (home :: names) = .ok entry := by
  unfold HostTree.isThere at hthere
  cases hstat : d.tree.stat false (home :: names) with
  | error e =>
    rw [hstat] at hthere
    cases hthere
  | ok entry =>
    obtain ⟨place, hp, hfind⟩ := HostTree.stat_eq_ok.mp hstat
    rw [HostTree.Base.place_eq h hs ho hp] at hfind
    exact ⟨HostTree.Base.open_of_placeOf h hs ho hp, entry, hfind, rfl⟩

theorem Homed.find?_of_not_isThere (h : d.Homed) (hopen : d.tree.Open home names)
    (ho : ∀ n ∈ names, Ordinary n) (hthere : d.tree.isThere (home :: names) = false) :
    d.tree.find? (home :: names) = none := by
  unfold HostTree.isThere at hthere
  rw [hopen.stat_eq h ho] at hthere
  cases hfind : d.tree.find? (home :: names) with
  | none => rfl
  | some entry =>
    rw [hfind] at hthere
    cases hthere

/-- Taking away what is there, unless it is a directory that holds something, prunes the tree;
or nothing is taken away. -/
theorem Homed.remove_cases (h : d.Homed) (hs : d.tree.Straight [home] names)
    (ho : ∀ n ∈ names, Ordinary n) (hne : names ≠ []) {entry : HostEntry}
    (hstat : d.tree.stat false (home :: names) = .ok entry) :
    (∃ e, d.remove now path (home :: names) false = (.error e, d)) ∨
      (entry.node = .directory → d.tree.isEmptyAt (home :: names) = true) ∧
        ∃ dir, d.remove now path (home :: names) false =
          (.ok (), ⟨(d.tree.prune (home :: names)).touch now dir⟩) := by
  unfold Disk.remove
  rw [hstat]
  dsimp only
  rw [if_neg (by simp)]
  split
  · rename_i t hr
    right
    split at hr
    · obtain ⟨⟨dir, name⟩, hh, hr⟩ := bind_eq_ok.mp (mapError_eq_ok.mp hr)
      dsimp only at hr
      split at hr
      · cases hr
      rename_i hempty
      cases hr
      rw [(HostTree.Base.holder_place h hs ho hne hh).1] at hempty ⊢
      rw [Bool.not_eq_true, Bool.or_eq_false_iff, Bool.not_eq_false'] at hempty
      exact ⟨fun _ => hempty.2, _, rfl⟩
    · rename_i hfile
      obtain ⟨place, hp, hr⟩ := bind_eq_ok.mp (mapError_eq_ok.mp hr)
      cases hr
      rw [HostTree.Base.place_eq h hs ho hp]
      exact ⟨fun hk => absurd hk hfile, _, rfl⟩
  · exact .inl ⟨_, rfl⟩

/-- Clearing the destination of a move fails, or takes away what stands there and nothing at or
below the source. -/
theorem Homed.clear_cases (h : d.Homed) (hD : ∀ n ∈ D, Ordinary n) (hopen : d.tree.Open home S)
    (hthere : d.tree.find? (home :: S) ≠ none) (hs : d.tree.Straight [home] D) {entry : HostEntry}
    (hfind : d.tree.find? (home :: D) = some entry)
    (hstat : d.tree.stat false (home :: D) = .ok entry)
    (hfree : (entry.node = .directory → d.tree.isEmptyAt (home :: D) = true) → ¬S <+: D)
    (now : Instant) (path : String) :
    (∃ e, d.remove now path (home :: D) false = (.error e, d)) ∨
      ¬S <+: D ∧ ¬D <+: S ∧ ∃ dir, d.remove now path (home :: D) false =
        (.ok (), ⟨(d.tree.prune (home :: D)).touch now dir⟩) := by
  by_cases hnil : D = []
  · subst hnil
    have hfull : d.tree.isEmptyAt [home] = false := by
      by_contra hempty
      rw [Bool.not_eq_false] at hempty
      have hS : S = [] := by simpa using HostTree.eq_of_isEmptyAt hempty ⟨S, rfl⟩ hthere
      exact hfree (fun _ => hempty) (hS ▸ List.prefix_rfl)
    obtain ⟨names, below, hne, hbelow⟩ := HostTree.exists_below_of_isEmptyAt hfull
    exact .inl (h.remove_home hne hbelow now _)
  refine (h.remove_cases hs hD hnil hstat).imp_right fun ⟨hempty, hpruned⟩ =>
    ⟨hfree hempty, ?_, hpruned⟩
  have hSD := hfree hempty
  -- A directory that leads to the source is not empty.
  intro hp
  have hne : D ≠ S := fun heq => hSD (heq ▸ List.prefix_rfl)
  have hnode := hopen.directories D (HostTree.prefix_dropLast_of_ne hp hne)
  rw [HostTree.node?, hfind] at hnode
  have hsame := HostTree.eq_of_isEmptyAt (hempty (Option.some.inj hnode))
    ((List.prefix_cons_inj home).mpr hp) hthere
  exact hne (List.cons.inj hsame).2.symm

/-- A move to a free place relocates what was there. -/
theorem Homed.relocated_of_free (h : d.Homed) (hg : d.Grounded) (hs : d.tree.Straight [home] S)
    (hs' : d.tree.Straight [home] D) (hS : ∀ n ∈ S, Ordinary n) (hD : ∀ n ∈ D, Ordinary n)
    (hheld : d.tree.isThere (home :: D) = false) {t : HostTree}
    (hm : d.tree.move now (home :: S) (home :: D) = .ok t) : d.tree.Relocated t home S D := by
  obtain ⟨-, -, destDir, destName, -, hdh, -, hshort, -⟩ := HostTree.relocate_of_move hm
  have hopen := HostTree.Base.open_of_holder h hs' hD hdh hshort
  have hfree := h.find?_of_not_isThere hopen hD hheld
  exact HostTree.Base.relocated_of_move h hs hs' hS hD (fun place hp => hg.free_below hfree hp) hm

/-- **A move on a disk is refused without a trace, or relocates what was there** to a destination
that does not lie at or below the source, as the paths are read. -/
theorem Homed.move_cases (h : d.Homed) (hg : d.Grounded) (hS : ∀ n ∈ S, Ordinary n)
    (hD : ∀ n ∈ D, Ordinary n) (hno : ¬d.Tangled S D overwrite) {st : Status}
    (hst : d.status (rootText S) = .ok (some st)) {res : Except Error Unit}
    (hm : d.move now (rootText S) (rootText D) overwrite = (res, d')) :
    (∃ e, res = .error e) ∧ d' = d ∨ res = .ok () ∧
      d.tree.Relocated d'.tree home (settle S) (settle D) ∧
      ∃ p, Path.read (rootText D) = .ok p := by
  unfold Disk.move at hm
  split at hm
  · cases hm
    exact .inl ⟨⟨_, rfl⟩, rfl⟩
  · cases hm
    exact .inl ⟨⟨_, rfl⟩, rfl⟩
  rename_i srcWay destWay hsrc hdest
  obtain ⟨p, hread, -, -⟩ := way_eq_ok.mp hdest
  obtain ⟨rfl, hstraight⟩ := h.way_eq hS hsrc
  obtain ⟨rfl, hstraight'⟩ := h.way_eq hD hdest
  have hso := settle_ordinary hS
  have hdo := settle_ordinary hD
  obtain ⟨hopen, source, hsource, -⟩ := h.open_of_status hS hst
  have hthere : d.tree.find? (home :: settle S) ≠ none := by simp [hsource]
  dsimp only at hm
  cases hheld : d.tree.isThere (home :: settle D) with
  | false =>
    -- The destination is free, so the move is all that happens.
    simp only [hheld, Bool.false_and, Bool.false_eq_true, if_false] at hm
    split at hm
    · rename_i t hmove
      cases hm
      exact .inr ⟨rfl, h.relocated_of_free hg hstraight hstraight' hso hdo hheld hmove, p, hread⟩
    · cases hm
      exact .inl ⟨⟨_, rfl⟩, rfl⟩
  | true =>
  obtain ⟨hopen', entry, hentry, hstat⟩ := h.open_of_isThere hstraight' hdo hheld
  simp only [hheld, Bool.true_and, if_true] at hm
  split at hm
  · cases hm
    exact .inl ⟨⟨_, rfl⟩, rfl⟩
  rename_i hoverwrite
  rcases h.clear_cases hdo hopen hthere hstraight' hentry hstat
    (fun hempty hp => hno ⟨by simpa using hoverwrite, hp, entry, hentry, hempty⟩) now (rootText D)
    with ⟨e, hremove⟩ | ⟨hSD, hDS, dir, hremove⟩
  · rw [hremove] at hm
    cases hm
    exact .inl ⟨⟨_, rfl⟩, rfl⟩
  obtain ⟨mid, t', hmid, hmove, hrelocated⟩ := HostTree.Base.relocated_of_prune
    h hopen hopen' hso hdo hthere hSD hDS now dir
  rw [hremove, ← hmid] at hm
  dsimp only at hm
  rw [hmove] at hm
  cases hm
  exact .inr ⟨rfl, hrelocated, p, hread⟩

/-- **What is reported where an entry was moved from, or below it, is reported where it was moved
to**, if that can be read and the way there is not too long. -/
theorem Homed.status_of_relocated (h : d.Homed)
    (hm : d.tree.Relocated d'.tree home (settle S) (settle D)) {old new : List String}
    (hold : ∀ n ∈ old, Ordinary n) (hnew : ∀ n ∈ new, Ordinary n) {rest : List String}
    (hs : settle old = settle S ++ rest) (hd : settle new = settle D ++ rest)
    (hopen : d.tree.Open home (settle old) → d'.tree.Open home (settle new)) {p : Path}
    (hread : Path.read (rootText new) = .ok p) {st : Status}
    (hst : d.status (rootText old) = .ok (some st)) :
    ∃ st', d'.status (rootText new) = .ok (some st') ∧ st.SameEntry st' := by
  obtain ⟨hway, entry, hfind, hreport⟩ := h.open_of_status hold hst
  have hfound := hm.found rest
  rw [← hs, ← hd, HostTree.node?_eq_some.mpr ⟨entry, hfind, rfl⟩] at hfound
  exact Homed.status_of_node hm.rooted hnew hread (hopen hway) hfound hreport

/-- **What a move on a disk carries.**  A move that fails leaves the disk as it was, and one that
succeeds brings the entry to its destination with all below it, unless the destination is cleared
for it and is read as the source or as lying below it. -/
theorem Homed.carried_of_move (h : d.Homed) (hg : d.Grounded) (hS : ∀ n ∈ S, Ordinary n)
    (hD : ∀ n ∈ D, Ordinary n) (hno : ¬d.Tangled S D overwrite) {st : Status}
    (hst : d.status (rootText S) = .ok (some st)) {res : Except Error Unit}
    (hm : d.move now (rootText S) (rootText D) overwrite = (res, d')) :
    (∃ e, res = .error e) ∧ d' = d ∨ res = .ok () ∧ d.view.Carried d'.view S D := by
  refine (h.move_cases hg hS hD hno hst hm).imp_right
    fun ⟨hres, hrelocated, p, hread⟩ => ⟨hres, ?_, ?_, ?_, ?_⟩
  · exact fun st' hst' => h.status_of_relocated hrelocated hS hD (List.append_nil _).symm
      (List.append_nil _).symm (fun _ => hrelocated.dest_open) hread hst'
  · intro hdir more hmore ⟨hlen, hway⟩ st' hst'
    have hSo := settle_ordinary hS
    have hDo := settle_ordinary hD
    obtain ⟨q, hreadS⟩ := read_of_status hst'
    have hs := hmore.settle_append hSo
    have hd := hmore.settle_append hDo
    refine h.status_of_relocated hrelocated (List.forall_mem_append.mpr ⟨hSo, hmore.ordinary⟩)
      (List.forall_mem_append.mpr ⟨hDo, hmore.ordinary⟩) hs hd (fun hopen => ?_)
      (hmore.read_append hSo hreadS hD hread hlen) hst'
    rw [hd] at hway ⊢
    rw [hs] at hopen
    by_cases hnil : settle more = []
    · rw [hnil, List.append_nil]
      exact hrelocated.dest_open
    · exact hrelocated.open_below hnil hopen hway
  · intro rest _ _ node hnode
    exact (hrelocated.found rest).trans hnode
  · obtain ⟨q, hreadS⟩ := read_of_status hst
    obtain rfl := eq_of_read_rootText hS hreadS
    right
    change d'.status (rootText S) = _
    rw [status_of_open hrelocated.rooted hreadS (settle_ordinary hS) hrelocated.src_open]
    dsimp only
    rw [hrelocated.left]

end Disk

/-! ## Moving in a table -/

/-- What an entry kept in a row is. -/
def Row.node (r : Row) : Node :=
  match r.kind with
  | .file => .file (r.content.getD [])
  | .directory => .directory
  | .link => .link (r.target.getD "")

theorem Row.node_eq_directory {r : Row} : r.node = .directory ↔ r.kind = .directory := by
  unfold node
  cases r.kind <;> simp

/-- What is reported of a row does not depend on where it is stored, but for the path. -/
theorem Row.status_congr {r r' : Row} {st : Status} {p : Path} (h : r.status = .ok st)
    (hkind : r'.kind = r.kind) (hsize : r'.size = r.size) (htarget : r'.target = r.target)
    (hread : Path.read r'.path = .ok p) :
    ∃ st', r'.status = .ok st' ∧ st.SameEntry st' := by
  obtain ⟨place, target, -, hfound, rfl⟩ := Row.status_eq_ok.mp h
  refine ⟨_, Row.status_eq_ok.mpr
    ⟨p, target, hread, (Row.destination_congr htarget).trans hfound, rfl⟩, ?_⟩
  rw [hkind, hsize]
  exact ⟨rfl, rfl, rfl⟩

namespace Table

variable {t t' : Table} {S D : List String} {overwrite : Bool} {source : Row}

/-- What a table tells of its entries. -/
def view (t : Table) : View where
  status := t.status
  node? names := (t.rows.find? (·.path == rootText names)).map Row.node
  Fits names := (rootText names).length ≤ maxTextLength

/-- What makes a move of a row lose something, once its destination is cleared. -/
inductive Conflict (t cleared : Table) (source : Row) (S D : List String) : Prop
  /-- The row is the one that was cleared away. -/
  | same : S = D → Conflict t cleared source S D
  /-- A row below it was cleared away. -/
  | swept {row : Row} {rest : List String} : source.kind = .directory → row ∈ t.rows →
      row ∉ cleared.rows → rest ≠ [] → row.path = rootText (S ++ rest) →
      Conflict t cleared source S D
  /-- A row that is taken along is stored in its place. -/
  | replaced {row : Row} : source.kind = .directory → row ∈ cleared.rows →
      isUnder (rootText S) row.path = true →
      rebase (rootText S) (rootText D) row.path = rootText S → Conflict t cleared source S D
  /-- It is stored as the root itself. -/
  | root : S = [] → Conflict t cleared source S D
  /-- It is to be stored as the root, which holds nothing. -/
  | emptyRoot : D = [] → (∀ row ∈ t.rows, row.parent ≠ "/") → Conflict t cleared source S D

/-- There is a row at the source, the destination can be cleared, and then the move loses something,
as the paths are read. -/
def Tangled (t : Table) (src dest : List String) (overwrite : Bool) : Prop :=
  ∃ source cleared, t.find (rootText (settle src)) = .ok (some source) ∧
    t.Clears (rootText (settle dest)) overwrite cleared ∧
    t.Conflict cleared source (settle src) (settle dest)

theorem find?_of_nodup {rows : List Row} (h : (rows.map Row.path).Nodup) {row : Row}
    (hrow : row ∈ rows) {key : String} (hpath : row.path = key) :
    rows.find? (·.path == key) = some row := by
  cases hfind : rows.find? (·.path == key) with
  | none => exact absurd hpath (by simpa using List.find?_eq_none.mp hfind row hrow)
  | some found =>
    have hkey : found.path = key := by simpa using List.find?_some hfind
    rw [List.inj_on_of_nodup_map h (List.mem_of_find?_eq_some hfind) hrow
      (hkey.trans hpath.symm)]

theorem all_rows (h : t'.rows ≠ []) : t'.all = .ok t'.rows := by
  obtain ⟨rows? | rows⟩ := t'
  · exact absurd rfl h
  · rfl

theorem find_eq (h : t'.rows ≠ []) (key : String) :
    t'.find key = .ok (t'.rows.find? (·.path == key)) := by
  unfold find
  rw [all_rows h]
  rfl

/-- What a move does to the rows when nothing gets in its way. -/
structure Relocated (t t' : Table) (source : Row) (S D : List String) : Prop where
  src_ne : S ≠ []
  dest_ne : D ≠ []
  found : t.find (rootText S) = .ok (some source)
  moved : ∀ row ∈ t.rows, ∀ rest, rest = [] ∨ source.kind = .directory →
    row.path = rootText (S ++ rest) →
    ∃ row' ∈ t'.rows, Moves source (rootText S) (rootText D) row row'
  nodup : (t'.rows.map Row.path).Nodup
  left : ∀ row ∈ t'.rows, row.path ≠ rootText S

/-- Clearing the destination leaves the source and all below it. -/
theorem Clears.stays {cleared : Table} {dest : String} (h : t.Clears dest overwrite cleared)
    (hno : ¬t.Conflict cleared source S D) {first : Row} (hfirst : first ∈ cleared.rows)
    (hpath : first.path = rootText S) {row : Row} (hrow : row ∈ t.rows) {rest : List String}
    (hdir : rest = [] ∨ source.kind = .directory) (hrest : row.path = rootText (S ++ rest)) :
    row ∈ cleared.rows := by
  by_cases hnil : rest = []
  swap
  · by_contra hgone
    exact hno (.swept (hdir.resolve_left hnil) hrow hgone hnil hrest)
  subst hnil
  cases h with
  | free _ heq => rwa [heq]
  | removed _ _ hremove =>
    -- Another row of the same path is still there.
    have hsame : row.path = first.path := by rw [hrest, hpath, List.append_nil]
    refine (mem_remove_iff hremove).mpr ⟨hrow, fun hswept =>
      ((mem_remove_iff hremove).mp hfirst).2 ?_⟩
    rwa [Swept, ← hsame]

/-- A move keeps the row of the source and all below it, unless making place takes from them. -/
theorem relocated_of_move (hS : ∀ n ∈ S, Ordinary n) (hD : ∀ n ∈ D, Ordinary n)
    (hno : ¬t.Tangled S D overwrite) (htop : settle D = [] → ∀ row ∈ t.rows, row.parent ≠ "/")
    (hm : t.move (rootText S) (rootText D) overwrite = .ok t') :
    ∃ source, t.Relocated t' source (settle S) (settle D) := by
  obtain ⟨src, dest, source, cleared, hsrc, hdest, hfind, hclears, hmove⟩ := moveRows_of_move hm
  obtain rfl := key_rootText hS hsrc
  obtain rfl := key_rootText hD hdest
  have hfree : ¬t.Conflict cleared source (settle S) (settle D) :=
    fun hconflict => hno ⟨source, cleared, hfind, hclears, hconflict⟩
  have hne : rootText (settle S) ≠ rootText (settle D) := fun heq =>
    hfree (.same (rootText_inj (settle_ordinary hS) (settle_ordinary hD) heq))
  rcases moves_of_moveRows hmove with ⟨heq, -⟩ | ⟨-, hmoves, ⟨first, hfirst, hfpath⟩, hnodup⟩
  · exact absurd heq hne
  refine ⟨source, fun hnil => hfree (.root hnil), fun hnil => hfree (.emptyRoot hnil (htop hnil)),
    hfind, fun row hrow rest hdir hrpath => ?_, hnodup, fun row hrow => ?_⟩
  · exact exists_right_of_forall₂ hmoves (hclears.stays hfree hfirst hfpath hrow hdir hrpath)
  · obtain ⟨old, hold, hmoved⟩ := exists_left_of_forall₂ hmoves hrow
    exact hmoved.path_ne hne.symm fun hdir hunder heq => hfree (.replaced hdir hold hunder heq)

namespace Relocated

variable (h : t.Relocated t' source S D) (hS : ∀ n ∈ S, Ordinary n) (hD : ∀ n ∈ D, Ordinary n)

include h

/-- The row of the source, or one below it, is found again where the move has brought it. -/
theorem exists_row {rest : List String} (hS : ∀ n ∈ S ++ rest, Ordinary n)
    (hdir : rest = [] ∨ source.kind = .directory) {row : Row}
    (hfind : t.rows.find? (·.path == rootText (S ++ rest)) = some row) :
    ∃ row', t'.rows.find? (·.path == rootText (D ++ rest)) = some row' ∧
      row'.path = rootText (D ++ rest) ∧ row'.kind = row.kind ∧ row'.content = row.content ∧
      row'.size = row.size ∧ row'.target = row.target ∧
      ∃ parent name, Table.split (rootText (D ++ rest)) = .ok (parent, name) := by
  have hpath : row.path = rootText (S ++ rest) := by simpa using List.find?_some hfind
  obtain ⟨row', hrow', hmoved⟩ := h.moved row (List.mem_of_find?_eq_some hfind) rest hdir hpath
  by_cases hrest : rest = []
  · subst hrest
    rw [List.append_nil] at hpath hfind ⊢
    obtain rfl : row = source := Option.some.inj (hfind.symm.trans (find_eq_ok h.found))
    rw [Moves, if_pos hpath] at hmoved
    obtain ⟨parent, name, hsplit, rfl⟩ := hmoved
    exact ⟨_, find?_of_nodup h.nodup hrow' rfl, rfl, rfl, rfl, rfl, rfl, parent, name, hsplit⟩
  have hne : row.path ≠ rootText S := by
    rw [hpath]
    intro heq
    have happ := rootText_inj hS (fun n hn => hS n (by simp [hn])) heq
    exact hrest (by simpa using happ)
  have hin : isUnder (rootText S) row.path = true := hpath ▸ isUnder_append hS h.src_ne hrest
  have hto : rebase (rootText S) (rootText D) row.path = rootText (D ++ rest) := by
    rw [hpath, rebase_rootText h.src_ne h.dest_ne rfl]
  rw [Moves, if_neg hne, if_pos ⟨hdir.resolve_left hrest, hin⟩, hto] at hmoved
  obtain ⟨parent, name, hsplit, rfl⟩ := hmoved
  exact ⟨_, find?_of_nodup h.nodup hrow' rfl, rfl, rfl, rfl, rfl, rfl, parent, name, hsplit⟩

theorem rows_ne (hS : ∀ n ∈ S, Ordinary n) : t'.rows ≠ [] := by
  have hfind : t.rows.find? (·.path == rootText (S ++ [])) = some source := by
    rw [List.append_nil]
    exact find_eq_ok h.found
  obtain ⟨row, hrow, -⟩ := h.exists_row (by simpa using hS) (.inl rfl) hfind
  exact List.ne_nil_of_mem (List.mem_of_find?_eq_some hrow)

/-- The entry is at the destination with all below it. -/
theorem node?_eq {rest : List String} (hS : ∀ n ∈ S ++ rest, Ordinary n)
    (hdir : rest = [] ∨ source.kind = .directory) {node : Node}
    (hnode : t.view.node? (S ++ rest) = some node) : t'.view.node? (D ++ rest) = some node := by
  obtain ⟨row, hfind, rfl⟩ := Option.map_eq_some_iff.mp hnode
  obtain ⟨row', hfind', -, hkind, hcontent, -, htarget, -⟩ := h.exists_row hS hdir hfind
  change (t'.rows.find? _).map Row.node = _
  rw [hfind', Option.map_some, Row.node, Row.node, hkind, hcontent, htarget]

/-- What is reported of the source, or below it, is reported where the move has brought it. -/
theorem status_eq {old new rest : List String} (hold : ∀ n ∈ old, Ordinary n)
    (hnew : ∀ n ∈ new, Ordinary n) (hs : settle old = S ++ rest) (hd : settle new = D ++ rest)
    (hdir : rest = [] ∨ source.kind = .directory) {p : Path}
    (hread : Path.read (rootText new) = .ok p) {st : Status}
    (hst : t.status (rootText old) = .ok (some st)) :
    ∃ st', t'.status (rootText new) = .ok (some st') ∧ st.SameEntry st' := by
  have hSo : ∀ n ∈ S ++ rest, Ordinary n := hs ▸ settle_ordinary hold
  have hDo : ∀ n ∈ D ++ rest, Ordinary n := hd ▸ settle_ordinary hnew
  obtain ⟨key, hkey, hcases⟩ := status_cases hst
  obtain rfl := key_rootText hold hkey
  rw [hs] at hcases
  have hne : rootText (S ++ rest) ≠ "/" := rootText_ne hSo (by simp [h.src_ne])
  rcases hcases with ⟨hroot, -⟩ | ⟨-, -, hnone⟩ | ⟨-, row, status, hfind, hstatus, heq⟩
  · exact absurd hroot hne
  · cases hnone
  cases heq
  obtain ⟨row', hfind', hpath, hkind, -, hsize, htarget, parent, name, hsplit⟩ :=
    h.exists_row hSo hdir (find_eq_ok hfind)
  obtain ⟨q, hreadRow, -⟩ := bind_eq_ok.mp hsplit
  obtain ⟨st', hstatus', hsame⟩ :=
    Row.status_congr hstatus hkind hsize htarget (hpath ▸ hreadRow)
  refine ⟨st', ?_, hsame⟩
  have hkey' : Table.key (rootText new) = .ok (rootText (D ++ rest)) :=
    map_eq_ok.mpr ⟨p, hread, by rw [eq_of_read_rootText hnew hread, ← hd]; rfl⟩
  rw [status_of_find hkey' (rootText_ne hDo (by simp [h.dest_ne]))
    (find_eq (h.rows_ne fun n hn => hSo n (by simp [hn])) _), hfind', Option.elim_some, hstatus']
  rfl

end Relocated

/-- **What a move in a table carries**: the entry with all below it, unless making place for it
takes from it. -/
theorem carried_of_move (hS : ∀ n ∈ S, Ordinary n) (hD : ∀ n ∈ D, Ordinary n)
    (hno : ¬t.Tangled S D overwrite) (htop : settle D = [] → ∀ row ∈ t.rows, row.parent ≠ "/")
    (hm : t.move (rootText S) (rootText D) overwrite = .ok t') : t.view.Carried t'.view S D := by
  obtain ⟨source, h⟩ := relocated_of_move hS hD hno htop hm
  obtain ⟨_, _, -, -, hsrc, hdest, -⟩ := moveRows_of_move hm
  obtain ⟨p, hread, -⟩ := map_eq_ok.mp hdest
  obtain rfl := key_rootText hS hsrc
  have hSo := settle_ordinary hS
  have hDo := settle_ordinary hD
  have hsource : t.view.node? (settle S) = some .directory → source.kind = .directory := by
    intro hnode
    obtain ⟨row, hfind, hnode⟩ := Option.map_eq_some_iff.mp hnode
    obtain rfl : row = source := Option.some.inj (hfind.symm.trans (find_eq_ok h.found))
    exact Row.node_eq_directory.mp hnode
  refine ⟨fun st hst => ?_, fun hdir more hmore hlen st hst => ?_,
    fun rest hrest hdir node hnode => ?_, .inr ?_⟩
  · exact h.status_eq hS hD (List.append_nil _).symm (List.append_nil _).symm (.inl rfl) hread hst
  · have hstatus : t.status (rootText (settle S ++ more)) = .ok (some st) := hst
    obtain ⟨_, hkey, -⟩ := status_cases hstatus
    obtain ⟨q, hreadS, -⟩ := map_eq_ok.mp hkey
    exact h.status_eq (List.forall_mem_append.mpr ⟨hSo, hmore.ordinary⟩)
      (List.forall_mem_append.mpr ⟨hDo, hmore.ordinary⟩) (hmore.settle_append hSo)
      (hmore.settle_append hDo) (.inr (hsource hdir))
      (hmore.read_append hSo hreadS hD hread hlen) hst
  · exact h.node?_eq (List.forall_mem_append.mpr ⟨hSo, hrest⟩) (hdir.imp_right hsource) hnode
  · change t'.status (rootText S) = _
    have hnone : t'.rows.find? (·.path == rootText (settle S)) = none := by
      rw [List.find?_eq_none]
      simpa using h.left
    rw [status_of_find hsrc (rootText_ne hSo h.src_ne) (find_eq (h.rows_ne hSo) _), hnone,
      Option.elim_none]

end Table

end MountSpace
