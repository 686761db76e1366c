import MountSpace.Proofs.Resolve.Extension
import MountSpace.Proofs.Store.Writes

/-!
# Open ways

A way is open when nothing on it is too long and directories lead to its last name.  Whatever the
host is asked for on an open way, it comes to the place that the way spells, so what a disk reports
of a path is what stands there.

## Main definitions

* `HostTree.Open` — directories lead to the last name.
* `HostTree.Grows` — what stands anywhere still stands there.

Main statements: `Disk.status_of_open`, `Disk.Homed.open_of_status`, `Disk.Homed.status_of_grows`.
-/

namespace MountSpace

open MountSpace.Path

namespace HostTree

variable {t t' : HostTree} {dir place : Place} {names : List String} {name base : String}
variable {now : Instant}

/-! ## Open ways -/

/-- Nothing on the way below a base is too long, and directories lead to its last name. -/
structure Open (t : HostTree) (base : String) (names : List String) : Prop where
  /-- The way is not too long. -/
  way : t.limits.refusesWay (base :: names) = false
  /-- Its names are not too long. -/
  short : ∀ n ∈ names, t.limits.refusesName n = false
  /-- There are directories before the last name. -/
  directories : ∀ front, front <+: names.dropLast → t.node? (base :: front) = some .directory

theorem Base.open_nil (hb : t.Base base) : t.Open base [] where
  way := hb.way
  short := by simp
  directories front hf := by
    rw [List.prefix_nil.mp hf]
    exact hb.node

theorem prefix_dropLast_mono {front names : List String} (h : front <+: names) :
    front.dropLast <+: names.dropLast := by
  obtain ⟨rest, rfl⟩ := h
  rcases List.eq_nil_or_concat' rest with rfl | ⟨rest, last, rfl⟩
  · simp
  · rw [← List.append_assoc, List.dropLast_concat]
    exact (List.dropLast_prefix front).trans (List.prefix_append _ _)

theorem Open.of_prefix (h : t.Open base names) {front : List String} (hf : front <+: names) :
    t.Open base front where
  way := HostLimits.refusesWay_mono ((List.prefix_cons_inj base).mpr hf) h.way
  short n hn := h.short n (hf.subset hn)
  directories other ho := h.directories other (ho.trans (prefix_dropLast_mono hf))

theorem Open.of_stay (h : t.Open base names) (hstay : DirectoriesStay t t') :
    t'.Open base names where
  way := hstay.limits ▸ h.way
  short := hstay.limits ▸ h.short
  directories front hf := hstay.node _ (h.directories front hf)

/-- A walk from a directory comes to the end of names that lead down directories. -/
theorem advance_of_directories (ho : ∀ n ∈ names, Ordinary n)
    (hshort : ∀ n ∈ names, t.limits.refusesName n = false)
    (hdir : ∀ front, front <+: names.dropLast → front ≠ [] →
      t.node? (dir ++ front) = some .directory) :
    t.advance false dir names = .at_ (dir ++ names) := by
  induction names generalizing dir with
  | nil => simp [HostTree.advance]
  | cons name rest ih =>
    have hname := ho name (by simp)
    have hfits : ¬t.limits.refusesName name = true := by simp [hshort name (by simp)]
    by_cases hne : rest = []
    · subst hne
      rw [advance_last hname, if_neg hfits]
      split <;> rfl
    rw [List.dropLast_cons_of_ne_nil hne] at hdir
    rw [advance_cons hname hne, if_neg hfits, hdir [name] (by simp) (by simp)]
    dsimp only
    rw [ih (fun n hn => ho n (by simp [hn])) (fun n hn => hshort n (by simp [hn])),
      List.append_assoc]
    · rfl
    intro front hf _
    rw [List.append_assoc]
    exact hdir (name :: front) ((List.prefix_cons_inj name).mpr hf) (by simp)

/-- A walk that ends at a place has come down directories. -/
theorem directories_of_advance {follow : Bool} (ho : ∀ n ∈ names, Ordinary n)
    (h : t.advance follow dir names = .at_ place) :
    (∀ n ∈ names, t.limits.refusesName n = false) ∧
      ∀ front, front <+: names.dropLast → front ≠ [] →
        t.node? (dir ++ front) = some .directory := by
  induction names generalizing dir with
  | nil => exact ⟨by simp, fun front hf hne => absurd (List.prefix_nil.mp hf) hne⟩
  | cons name rest ih =>
    have hname := ho name (by simp)
    by_cases hne : rest = []
    · subst hne
      rw [advance_last hname] at h
      split at h
      · cases h
      rename_i hfits
      exact ⟨by simpa using hfits, fun front hf hnil => absurd (List.prefix_nil.mp hf) hnil⟩
    rw [advance_cons hname hne] at h
    split at h
    · cases h
    rename_i hfits
    split at h
    · rename_i hnode
      obtain ⟨hshort, hdir⟩ := ih (fun n hn => ho n (by simp [hn])) h
      refine ⟨fun n hn => ?_, fun front hf hnil => ?_⟩
      · rcases List.mem_cons.mp hn with rfl | hn
        · simpa using hfits
        · exact hshort n hn
      rw [List.dropLast_cons_of_ne_nil hne] at hf
      rcases List.prefix_cons_iff.mp hf with rfl | ⟨more, rfl, hmore⟩
      · exact absurd rfl hnil
      by_cases hnone : more = []
      · rw [hnone]
        exact hnode
      · have := hdir more hmore hnone
        rwa [List.append_assoc] at this
    · cases h
    · cases h
    · cases h

theorem Base.open_of_advance (hb : t.Base base) (ho : ∀ n ∈ names, Ordinary n)
    (hway : t.limits.refusesWay (base :: names) = false) {follow : Bool}
    (hat : t.advance follow [base] names = .at_ place) : t.Open base names := by
  obtain ⟨hshort, hdir⟩ := directories_of_advance ho hat
  refine ⟨hway, hshort, fun front hf => ?_⟩
  by_cases hnil : front = []
  · rw [hnil]
    exact hb.node
  · exact hdir front hf hnil

theorem straight_of_directories
    (hdir : ∀ front, front <+: names.dropLast → front ≠ [] →
      t.node? (dir ++ front) = some .directory) : t.Straight dir names := by
  induction names generalizing dir with
  | nil => trivial
  | cons name rest ih =>
    rcases rest with - | ⟨second, rest⟩
    · trivial
    have hnode := hdir [name] (by simp) (by simp)
    refine .inr ⟨by simp [hnode], fun _ => ih fun front hf _ => ?_⟩
    rw [List.append_assoc]
    exact hdir (name :: front) ((List.prefix_cons_inj name).mpr hf) (by simp)

namespace Open

variable (h : t.Open base names)

include h

theorem straight : t.Straight [base] names :=
  straight_of_directories fun front hf _ => h.directories front hf

variable (hb : t.Base base) (ho : ∀ n ∈ names, Ordinary n)

include hb ho

theorem placeOf_eq : t.placeOf false (base :: names) = .ok (base :: names) := by
  refine placeOf_eq_ok.mpr ⟨h.way, locate_of_at ?_⟩
  by_cases hne : names = []
  · subst hne
    exact hb.advance_nil false
  · rw [hb.advance false hne]
    exact advance_of_directories ho h.short fun front hf _ => h.directories front hf

theorem stat_eq : t.stat false (base :: names) = match t.find? (base :: names) with
    | some entry => .ok entry
    | none => .error .noEntry := by
  unfold stat
  rw [h.placeOf_eq hb ho]
  rfl

theorem placeOf_follow_eq (hl : ∀ text, t.node? (base :: names) ≠ some (.link text)) :
    t.placeOf true (base :: names) = .ok (base :: names) := by
  refine placeOf_eq_ok.mpr ⟨h.way, locate_of_at ?_⟩
  by_cases hne : names = []
  · subst hne
    exact hb.advance_nil true
  · have hl' : ∀ text, t.node? ([base] ++ names) ≠ some (.link text) := hl
    rw [hb.advance true hne, advance_follow ho hl']
    exact advance_of_directories ho h.short fun front hf _ => h.directories front hf

theorem holder_eq (hne : names ≠ []) :
    t.holder (base :: names) = .ok (base :: names.dropLast, names.getLast hne) := by
  have hnode : t.node? (base :: names.dropLast) = some .directory :=
    h.directories _ List.prefix_rfl
  have hplace := (h.of_prefix (List.dropLast_prefix names)).placeOf_follow_eq hb
    (fun n hn => ho n (List.dropLast_subset _ hn)) (by simp [hnode])
  have hlast : (base :: names).getLast?.getD "." = names.getLast hne := by
    obtain ⟨first, rest, rfl⟩ := List.exists_cons_of_ne_nil hne
    rw [List.getLast?_cons_cons, List.getLast?_eq_some_getLast (by simp)]
    rfl
  refine holder_eq_ok.mpr ⟨h.way, ?_, hnode, hlast⟩
  rw [List.dropLast_cons_of_ne_nil hne, hplace]

end Open

namespace Base

variable (hb : t.Base base) (hs : t.Straight [base] names) (ho : ∀ n ∈ names, Ordinary n)

include hb hs ho

/-- A straight way that leads somewhere is open. -/
theorem open_of_placeOf (hp : t.placeOf false (base :: names) = .ok place) : t.Open base names := by
  by_cases hne : names = []
  · subst hne
    exact hb.open_nil
  have hends := hs.advance ho
  rw [← hb.advance false hne] at hends
  obtain ⟨hat, -⟩ := at_of_placeOf hends hp
  rw [hb.advance false hne] at hat
  exact hb.open_of_advance ho (placeOf_eq_ok.mp hp).1 hat

/-- A straight way whose last name has a directory is open, if that name is not too long. -/
theorem open_of_holder (hh : t.holder (base :: names) = .ok (dir, name))
    (hname : t.limits.refusesName name = false) : t.Open base names := by
  rcases List.eq_nil_or_concat' names with rfl | ⟨init, last, rfl⟩
  · exact hb.open_nil
  obtain ⟨hdir', hlast⟩ := hb.holder_eq hs ho (by simp) hh
  obtain rfl : last = name := by simpa using hlast.symm
  obtain ⟨hway, hp, hnode, -⟩ := holder_eq_ok.mp hh
  rw [hdir', List.dropLast_concat] at hnode
  have hinit : t.Open base init := by
    rw [List.dropLast_cons_of_ne_nil (by simp), List.dropLast_concat] at hp
    by_cases hnil : init = []
    · rw [hnil]
      exact hb.open_nil
    have hends := hs.advance_dropLast ho
    rw [List.dropLast_concat, ← hb.advance true hnil] at hends
    obtain ⟨hat, -⟩ := at_of_placeOf hends hp
    rw [hb.advance true hnil] at hat
    exact hb.open_of_advance (fun n hn => ho n (by simp [hn])) (placeOf_eq_ok.mp hp).1 hat
  refine ⟨hway, fun n hn => ?_, fun front hf => ?_⟩
  · rcases List.mem_append.mp hn with hn | hn
    · exact hinit.short n hn
    · rw [List.mem_singleton.mp hn]
      exact hname
  rw [List.dropLast_concat] at hf
  rcases List.eq_nil_or_concat' init with rfl | ⟨more, next, rfl⟩
  · exact hinit.directories front hf
  · rcases List.prefix_concat_iff.mp hf with rfl | hf
    · exact hnode
    · exact hinit.directories front (by simpa using hf)

end Base

/-! ## Trees that grow -/

/-- The same limits, and what stands anywhere still stands there. -/
structure Grows (t t' : HostTree) : Prop where
  limits : t'.limits = t.limits
  node : ∀ place node, t.node? place = some node → t'.node? place = some node

theorem Grows.stay (h : Grows t t') : DirectoriesStay t t' := ⟨h.limits, fun _ => h.node _ _⟩

theorem grows_of_create {node : Node} (h : t.create now names node = .ok t') : Grows t t' := by
  obtain ⟨place, hv, rfl⟩ := create_eq_ok h
  refine ⟨rfl, fun other found hfound => ?_⟩
  have hne : other ≠ place := by
    rintro rfl
    rw [node?, find?_of_vacancy hv] at hfound
    cases hfound
  rw [node?_touch, node?_put_of_ne hne, hfound]

end HostTree

namespace Disk

variable {d d' : Disk} {now : Instant} {path : String} {names : List String} {p : Path}

/-- What is reported of an entry depends on what it is. -/
theorem report_congr {entry entry' : HostEntry} {other : String} {st : Status}
    (hnode : entry'.node = entry.node) (h : report path entry = .ok st)
    (hread : Path.read other = .ok p) :
    ∃ st', report other entry' = .ok st' ∧ st.SameEntry st' ∧ st'.path = p := by
  obtain ⟨place, target, -, htarget, rfl⟩ := report_eq_ok.mp h
  rw [← hnode] at htarget
  refine ⟨_, report_eq_ok.mpr ⟨p, target, hread, htarget, rfl⟩, ?_, rfl⟩
  rw [hnode]
  exact ⟨rfl, rfl, rfl⟩

/-- No link stands on an open way. -/
theorem checkWay_of_open (h : d.Homed) {done rest : List String}
    (ho : ∀ n ∈ done ++ rest, Ordinary n) (hopen : d.tree.Open home (done ++ rest)) :
    d.checkWay path done rest = .ok () := by
  induction rest generalizing done with
  | nil => rfl
  | cons name rest ih =>
    rcases rest with - | ⟨second, rest⟩
    · rfl
    have hsplit : done ++ name :: second :: rest = (done ++ [name]) ++ second :: rest := by simp
    rw [hsplit] at ho hopen
    have hnode : d.tree.node? (home :: (done ++ [name])) = some .directory := by
      refine hopen.directories _ ?_
      rw [List.dropLast_append_of_ne_nil (by simp)]
      exact List.prefix_append _ _
    obtain ⟨⟨node, accessed, modified⟩, hfind, hnode⟩ := HostTree.node?_eq_some.mp hnode
    obtain rfl : node = .directory := hnode
    have hstat := (hopen.of_prefix (List.prefix_append _ _)).stat_eq h
      fun n hn => ho n (List.mem_append_left _ hn)
    rw [hfind] at hstat
    rw [checkWay, hstat]
    · exact ih ho hopen
    · simp

theorem way_of_open (h : d.Homed) (hread : Path.read path = .ok p)
    (ho : ∀ n ∈ p.segments, Ordinary n) (hopen : d.tree.Open home p.segments) :
    d.way path = .ok (home :: p.segments) :=
  way_eq_ok.mpr
    ⟨p, hread, checkWay_of_open h (by simpa using ho) (by simpa using hopen), rfl⟩

/-- On an open way, a disk reports what stands at its end. -/
theorem status_of_open (h : d.Homed) (hread : Path.read path = .ok p)
    (ho : ∀ n ∈ p.segments, Ordinary n) (hopen : d.tree.Open home p.segments) :
    d.status path = match d.tree.find? (home :: p.segments) with
      | some entry => some <$> report path entry
      | none => .ok none :=
  status_of_placeOf (way_of_open h hread ho hopen) (hopen.placeOf_eq h ho)

/-- What stands at the end of an open way is reported as whatever else is the same node. -/
theorem Homed.status_of_node (h : d.Homed) (hn : ∀ n ∈ names, Ordinary n)
    (hread : Path.read (rootText names) = .ok p) (hopen : d.tree.Open home (settle names))
    {entry : HostEntry} (hnode : d.tree.node? (home :: settle names) = some entry.node)
    {st : Status} (hreport : report path entry = .ok st) :
    ∃ st', d.status (rootText names) = .ok (some st') ∧ st.SameEntry st' := by
  obtain ⟨entry', hfind, hsame⟩ := HostTree.node?_eq_some.mp hnode
  obtain ⟨st', hreport', hentry, -⟩ := report_congr hsame hreport hread
  obtain rfl := eq_of_read_rootText hn hread
  have hstatus := status_of_open h hread (settle_ordinary hn) hopen
  dsimp only at hstatus
  rw [hfind] at hstatus
  exact ⟨st', hstatus.trans (congrArg (some <$> ·) hreport'), hentry⟩

/-- What a disk reports stands at the end of an open way. -/
theorem Homed.open_of_status (h : d.Homed) (hn : ∀ n ∈ names, Ordinary n) {st : Status}
    (hs : d.status (rootText names) = .ok (some st)) :
    d.tree.Open home (settle names) ∧ ∃ entry,
      d.tree.find? (home :: settle names) = some entry ∧
      report (rootText names) entry = .ok st := by
  obtain ⟨way, entry, hw, hstat, hreport⟩ := status_eq_some hs
  obtain ⟨rfl, hstraight⟩ := h.way_eq hn hw
  obtain ⟨place, hp, hfind⟩ := HostTree.stat_eq_ok.mp hstat
  rw [HostTree.Base.place_eq h hstraight (settle_ordinary hn) hp] at hfind
  exact ⟨HostTree.Base.open_of_placeOf h hstraight (settle_ordinary hn) hp, entry, hfind, hreport⟩

/-- What a disk reports it still reports when its tree has grown. -/
theorem Homed.status_of_grows (h : d.Homed) (hg : HostTree.Grows d.tree d'.tree)
    (hn : ∀ n ∈ names, Ordinary n) {st : Status} (hs : d.status (rootText names) = .ok (some st)) :
    ∃ st', d'.status (rootText names) = .ok (some st') ∧ st.SameEntry st' := by
  obtain ⟨hopen, entry, hfind, hreport⟩ := h.open_of_status hn hs
  obtain ⟨p, hread⟩ := read_of_status hs
  have hnode := hg.node (home :: settle names) entry.node
    (HostTree.node?_eq_some.mpr ⟨entry, hfind, rfl⟩)
  exact (h.of_stay hg.stay).status_of_node hn hread (hopen.of_stay hg.stay) hnode hreport

end Disk

end MountSpace
