import MountSpace.Proofs.Store.Reach

/-!
# One file written or appended to

A store that is handed bytes holds a new file afterwards, or an old one with other content, and is
as it was but for that.  On a disk the file is where the host finds the path, wherever that is: the
home may be missing, or be a link.  Every way that could be walked leads where it led.

## Main definitions

* `HostTree.Renews`, `Table.Renews` — a store with one file made or given other content.
* `Disk.place?` — the place to which the host finds a path.

Main statements: `Disk.renews_of_write`, `Disk.renews_of_append`, `Table.renews_of_write`,
`Table.renews_of_append`, `Disk.status_of_renews`, `Table.Renews.status_of_kind`.
-/

namespace MountSpace

open MountSpace.Path

namespace HostTree

variable {t t' : HostTree} {place other : Place} {names : List String} {content data : Bytes}
variable {follow : Bool} {now : Instant}

/-! ## A tree with one file renewed -/

/-- The tree `t'` is `t` but for a file with this content, at a place where a file or nothing
stood.  The times of directories are left out. -/
structure Renews (t t' : HostTree) (place : Place) (content : Bytes) : Prop where
  limits : t'.limits = t.limits
  old : ∀ node, t.node? place = some node → ∃ former, node = .file former
  node : t'.node? place = some (.file content)
  kept : ∀ other, other ≠ place → t'.kept? other = t.kept? other
  still : t.Still t' place

theorem node?_eq_kept? (t : HostTree) (place : Place) :
    t.node? place = (t.kept? place).map HostEntry.node := by
  have htimeless : ∀ e : HostEntry, e.timeless.node = e.node := by
    intro e
    unfold HostEntry.timeless
    split
    · rename_i hdir
      rw [hdir]
      rfl
    · rfl
  rw [node?, kept?, Option.map_map]
  exact congrArg (fun f => (t.find? place).map f) (funext fun e => (htimeless e).symm)

namespace Renews

variable (h : t.Renews t' place content)

include h

theorem node?_of_ne (hne : other ≠ place) : t'.node? other = t.node? other := by
  rw [node?_eq_kept?, h.kept other hne, ← node?_eq_kept?]

/-- A walk ends as it did, but that it may fail at a file where it failed for want of an entry. -/
theorem advance (follow : Bool) (dir : Place) (names : List String) :
    t'.advance follow dir names = t.advance follow dir names ∨
      t.advance follow dir names = .failed .noEntry ∧
        t'.advance follow dir names = .failed .notDirectory := by
  induction names generalizing dir with
  | nil => exact .inl rfl
  | cons name rest ih =>
    by_cases hnil : rest = []
    · subst hnil
      left
      rw [advance_end, advance_end, h.limits]
      by_cases hplace : next dir name = place
      · rw [hplace, h.node]
        cases hnode : t.node? place with
        | none => rfl
        | some node =>
          obtain ⟨former, rfl⟩ := h.old node hnode
          rfl
      · rw [h.node?_of_ne hplace]
    · rw [advance_on hnil, advance_on hnil, h.limits]
      split
      · exact .inl rfl
      by_cases hplace : next dir name = place
      · rw [hplace, h.node]
        cases hnode : t.node? place with
        | none => exact .inr ⟨rfl, rfl⟩
        | some node =>
          obtain ⟨former, rfl⟩ := h.old node hnode
          exact .inl rfl
      · rw [h.node?_of_ne hplace]
        split
        · exact ih _
        · exact .inl rfl
        · exact .inl rfl
        · exact .inl rfl

theorem locate (follow : Bool) (links : ℕ) (dir : Place) (names : List String) :
    t'.locate follow links dir names = t.locate follow links dir names ∨
      t.locate follow links dir names = .error .noEntry ∧
        t'.locate follow links dir names = .error .notDirectory := by
  have hwalk := h.advance follow
  fun_induction HostTree.locate t follow links dir names with
  | case1 links dir names there hat =>
    rcases hwalk dir names with hsame | ⟨hold, -⟩
    · exact .inl (locate_of_at (hsame.trans hat))
    · cases hat.symm.trans hold
  | case2 links dir names cause hfail =>
    unfold HostTree.locate
    rcases hwalk dir names with hsame | ⟨hold, hnew⟩
    · rw [hsame, hfail]
      exact .inl rfl
    · rw [hnew]
      cases hfail.symm.trans hold
      exact .inr ⟨rfl, rfl⟩
  | case3 dir names other text rest hlink =>
    unfold HostTree.locate
    rcases hwalk dir names with hsame | ⟨hold, -⟩
    · rw [hsame, hlink]
      exact .inl rfl
    · cases hlink.symm.trans hold
  | case4 dir names other text rest hlink links ih =>
    rcases hwalk dir names with hsame | ⟨hold, -⟩
    · rw [locate_of_link (hsame.trans hlink)]
      exact ih
    · cases hlink.symm.trans hold

theorem placeOf (follow : Bool) (names : List String) :
    t'.placeOf follow names = t.placeOf follow names ∨
      t.placeOf follow names = .error .noEntry ∧
        t'.placeOf follow names = .error .notDirectory := by
  unfold HostTree.placeOf
  rw [h.limits]
  split
  · exact .inl rfl
  · exact h.locate follow maxLinks [] names

theorem placeOf_eq (hp : t.placeOf follow names = .ok other) :
    t'.placeOf follow names = .ok other := by
  rcases h.placeOf follow names with hsame | ⟨hold, -⟩
  · rw [hsame, hp]
  · cases hp.symm.trans hold

/-- What stands at the end of a way is what stood there, unless it is the file or the way fails at
it. -/
theorem stat (follow : Bool) (names : List String) :
    HostEntry.node <$> t'.stat follow names = HostEntry.node <$> t.stat follow names ∨
      t'.stat follow names = .error .notDirectory ∨
      HostEntry.node <$> t'.stat follow names = .ok (.file content) := by
  have hstat : ∀ (u : HostTree) other, u.placeOf follow names = .ok other →
      HostEntry.node <$> u.stat follow names =
        (u.node? other).elim (.error .noEntry) .ok := by
    intro u other hp
    rw [HostTree.stat, hp, node?]
    simp only [bind, Except.bind]
    cases u.find? other <;> rfl
  cases hp : t.placeOf follow names with
  | error cause =>
    rcases h.placeOf follow names with hsame | ⟨-, hnew⟩
    · left
      rw [HostTree.stat, HostTree.stat, hsame, hp]
      rfl
    · right; left
      rw [HostTree.stat, hnew]
      rfl
  | ok other =>
    rw [hstat t other hp, hstat t' other (h.placeOf_eq hp)]
    by_cases hplace : other = place
    · right; right
      rw [hplace, h.node]
      rfl
    · left
      rw [h.node?_of_ne hplace]

/-- Links, directories and other failures stand where they stood. -/
theorem stat_eq {found : Except HostError Node}
    (hfound : HostEntry.node <$> t'.stat follow names = found)
    (hdir : found ≠ .error .notDirectory) (hfile : ∀ data, found ≠ .ok (.file data)) :
    HostEntry.node <$> t.stat follow names = found := by
  rcases h.stat follow names with hsame | hnew | hnew
  · exact hsame.symm.trans hfound
  · rw [hnew] at hfound
    exact absurd hfound.symm hdir
  · exact absurd (hfound.symm.trans hnew) (hfile content)

end Renews

/-! ## Making and appending to a file -/

/-- Replacing a file, or making one where nothing stands, renews it. -/
theorem renews_of_replaceFile (hne : names ≠ [])
    (hold : ∀ place node, t.placeOf false names = .ok place → t.node? place = some node →
      ∃ former, node = .file former)
    (h : t.replaceFile now names content = (.ok (), t')) :
    ∃ place, t.placeOf false names = .ok place ∧ t.Renews t' place content := by
  unfold replaceFile at h
  cases hh : t.holder names with
  | error e =>
    rw [hh] at h
    cases h
  | ok found =>
  obtain ⟨dir, name⟩ := found
  rw [hh] at h
  dsimp only at h
  split at h
  · cases h
  rename_i hdots
  split at h
  · cases h
  rename_i hname
  split at h
  · cases h
  cases h
  have hshort : t.limits.refusesName name = false := eq_false_of_ne_true hname
  have hplace := placeOf_of_holder hne hshort (eq_false_of_ne_true hdots) hh
  refine ⟨_, hplace, rfl, fun node hnode => hold _ node hplace hnode, ?_, fun other hother => ?_,
    still_of_find? fun other hother hdir => ?_⟩
  · rw [node?_put_self]
    rfl
  · rw [kept?_put_of_ne hother, kept?_touch (node?_of_holder hh)]
  · rw [find?_put_of_ne _ hother, find?_touch_of_ne hdir]

/-- Appending renews the file that is found. -/
theorem renews_of_append (h : t.append now names data = .ok t') :
    ∃ place former, t.placeOf true names = .ok place ∧ t.node? place = some (.file former) ∧
      t.Renews t' place (former ++ data) := by
  obtain ⟨place, former, accessed, modified, hp, hfind, rfl⟩ := append_eq_ok h
  have hnode : t.node? place = some (.file former) := node?_eq_some.mpr ⟨_, hfind, rfl⟩
  refine ⟨place, former, hp, hnode, rfl, fun node hn => ⟨former, ?_⟩, ?_, fun other hother => ?_,
    fun other hother _ => find?_put_of_ne t hother _⟩
  · exact Option.some.inj (hn.symm.trans hnode)
  · rw [node?_put_self]
  · exact kept?_put_of_ne hother _

end HostTree

/-! ## Disks -/

namespace Disk

variable {d d' : Disk} {now : Instant} {path : String} {way : List String} {place : Place}
variable {content data : Bytes} {overwrite : Bool} {entry : HostEntry}

/-- The place to which the host finds a path, following no link in the last place. -/
def place? (d : Disk) (path : String) : Option Place := do
  let way ← (d.way path).toOption
  (d.tree.placeOf false way).toOption

theorem place?_eq_some (hw : d.way path = .ok way) (hp : d.tree.placeOf false way = .ok place) :
    d.place? path = some place := by
  rw [place?, hw]
  exact congrArg Except.toOption hp

theorem exists_of_place? (h : d.place? path = some place) :
    ∃ way, d.way path = .ok way ∧ d.tree.placeOf false way = .ok place := by
  unfold place? at h
  cases hw : d.way path with
  | error e =>
    rw [hw] at h
    cases h
  | ok way =>
    rw [hw] at h
    refine ⟨way, rfl, ?_⟩
    change (d.tree.placeOf false way).toOption = some place at h
    cases hp : d.tree.placeOf false way with
    | error e =>
      rw [hp] at h
      cases h
    | ok found =>
      rw [hp] at h
      cases h
      rfl

/-- Nothing is reported where there is no home. -/
theorem status_homeless (limits : HostLimits) (now : Instant) (st : Status) :
    (homeless limits now).status path ≠ .ok (some st) := by
  intro h
  obtain ⟨way, entry, hway, hstat, -⟩ := status_eq_some h
  obtain ⟨p, -, -, rfl⟩ := way_eq_ok.mp hway
  obtain ⟨place, hp, hfind⟩ := HostTree.stat_eq_ok.mp hstat
  have hnode : (HostTree.bare limits now).node? (HostTree.next [] home) = none := rfl
  have hends : HostTree.EndsAt
      ((HostTree.bare limits now).advance false [] (home :: p.segments)) [home] := by
    rcases p.segments with - | ⟨name, rest⟩
    · rw [HostTree.advance_end, hnode]
      split
      · exact .inr ⟨_, rfl⟩
      · exact .inl rfl
    · rw [HostTree.advance_on (by simp), hnode]
      split <;> exact .inr ⟨_, rfl⟩
  obtain rfl := HostTree.eq_of_placeOf hends hp
  cases hfind

/-- What is reported of a path is what stands where the host finds it. -/
theorem status_of_place? (hp : d.place? path = some place) :
    d.status path = match d.tree.find? place with
      | some entry => some <$> report path entry
      | none => .ok none := by
  obtain ⟨way, hw, hp⟩ := exists_of_place? hp
  exact status_of_placeOf hw hp

section Renews

variable (h : d.tree.Renews d'.tree place content)

include h

/-- Ways that led past no link still do. -/
theorem checkWay_of_renews {before names : List String}
    (hc : d.checkWay path before names = .ok ()) : d'.checkWay path before names = .ok () := by
  induction names generalizing before with
  | nil => rfl
  | cons name rest ih =>
    by_cases hne : rest = []
    · subst hne
      rfl
    obtain ⟨second, more, rfl⟩ := List.exists_cons_of_ne_nil hne
    rw [checkWay] at hc ⊢
    swap
    · simp
    swap
    · simp
    split at hc
    · cases hc
    · cases hc
    rename_i hlink hlong
    split
    · rename_i text accessed modified hnew
      have hold := h.stat_eq (congrArg (HostEntry.node <$> ·) hnew) (by simp) (by simp)
      obtain ⟨⟨node, accessed', modified'⟩, hold, rfl⟩ := map_eq_ok.mp hold
      exact absurd hold (hlink _ _ _)
    · rename_i hnew
      have hold := h.stat_eq (congrArg (HostEntry.node <$> ·) hnew) (by simp) (by simp)
      cases hstat : d.tree.stat false (home :: (before ++ [name])) with
      | error cause =>
        rw [hstat] at hold
        cases hold
        exact absurd hstat hlong
      | ok entry =>
        rw [hstat] at hold
        cases hold
    · exact ih hc

theorem way_of_renews (hw : d.way path = .ok way) : d'.way path = .ok way := by
  obtain ⟨p, hread, hc, rfl⟩ := way_eq_ok.mp hw
  exact way_eq_ok.mpr ⟨p, hread, checkWay_of_renews h hc, rfl⟩

theorem place?_of_renews {other : Place} {path : String} (hp : d.place? path = some other) :
    d'.place? path = some other := by
  obtain ⟨way, hw, hp⟩ := exists_of_place? hp
  exact place?_eq_some (way_of_renews h hw) (h.placeOf_eq hp)

/-- What was reported of anything but a file is reported as it was. -/
theorem status_of_renews {st : Status} (hs : d.status path = .ok (some st))
    (hk : st.kind ≠ .file) : ∃ st', d'.status path = .ok (some st') ∧ st.SameEntry st' := by
  obtain ⟨way, entry, hw, hstat, hreport⟩ := status_eq_some hs
  obtain ⟨p, hread⟩ := read_of_status hs
  obtain ⟨other, hp, hfind⟩ := HostTree.stat_eq_ok.mp hstat
  have hnode : d.tree.node? other = some entry.node := HostTree.node?_eq_some.mpr ⟨_, hfind, rfl⟩
  have hne : other ≠ place := by
    rintro rfl
    obtain ⟨former, hfile⟩ := h.old _ hnode
    rw [report_file hfile hread] at hreport
    cases hreport
    exact hk rfl
  obtain ⟨entry', hfind', hnode'⟩ :=
    HostTree.node?_eq_some.mp ((h.node?_of_ne hne).trans hnode)
  obtain ⟨st', hreport', hsame, -⟩ := report_congr hnode' hreport hread
  refine ⟨st', ?_, hsame⟩
  rw [status_of_place? (place?_of_renews h (place?_eq_some hw hp)), hfind']
  exact congrArg (some <$> ·) hreport'

/-- The file is reported with the length of its content. -/
theorem file_of_renews (hp : d.place? path = some place) :
    ∃ st, d'.status path = .ok (some st) ∧ st.kind = .file ∧ st.size = content.length := by
  obtain ⟨way, hw, -⟩ := exists_of_place? hp
  obtain ⟨p, hread, -, -⟩ := way_eq_ok.mp hw
  obtain ⟨entry, hfind, hnode⟩ := HostTree.node?_eq_some.mp h.node
  rw [status_of_place? (place?_of_renews h hp), hfind]
  simp only [report_file hnode hread]
  exact ⟨_, rfl, rfl, rfl⟩

end Renews

/-- The content of a file that stands where the host finds the path. -/
theorem content_of_place? (hp : d.place? path = some place)
    (hnode : d.tree.node? place = some (.file content)) : d.content path = .ok content := by
  obtain ⟨way, hw, hp⟩ := exists_of_place? hp
  have hfollow := HostTree.placeOf_follow hp (by simp [hnode])
  obtain ⟨entry, hfind, hnode⟩ := HostTree.node?_eq_some.mp hnode
  unfold Disk.content HostTree.read HostTree.stat
  simp only [hw, hfollow, hfind, hnode, bind, Except.bind]
  rfl

/-- Where nothing or a file is reported, nothing or a file stands. -/
theorem file_of_status {found : Option Status} (hs : d.status path = .ok found)
    (hk : ∀ st, found = some st → st.kind = .file) (hp : d.place? path = some place) {node : Node}
    (hnode : d.tree.node? place = some node) : ∃ former, node = .file former := by
  obtain ⟨entry, hfind, rfl⟩ := HostTree.node?_eq_some.mp hnode
  rw [status_of_place? hp, hfind] at hs
  obtain ⟨st, hreport, rfl⟩ := map_eq_ok.mp hs
  exact Node.kind_file_iff.mp ((kind_of_report hreport).symm.trans (hk st rfl))

/-- Writing renews the file at the path, or makes one, where nothing or a file stands. -/
theorem renews_of_clear_write
    (hold : ∀ place node, d.place? path = some place → d.tree.node? place = some node →
      ∃ former, node = .file former)
    (h : d.write now path data overwrite = (.ok (), d')) :
    ∃ place, d.place? path = some place ∧ d.tree.Renews d'.tree place data := by
  unfold Disk.write at h
  cases hw : d.way path with
  | error e =>
    rw [hw] at h
    cases h
  | ok way =>
  obtain ⟨p, -, -, rfl⟩ := way_eq_ok.mp hw
  rw [hw] at h
  dsimp only at h
  split at h
  · cases h
  rcases hrep : d.tree.replaceFile now (home :: p.segments) data with ⟨done, tree⟩
  rw [hrep] at h
  cases done with
  | error cause => cases h
  | ok u =>
  cases h
  obtain ⟨place, hp, hrenews⟩ := HostTree.renews_of_replaceFile (by simp)
    (fun place node hp => hold place node (place?_eq_some hw hp)) hrep
  exact ⟨place, place?_eq_some hw hp, hrenews⟩

/-- **Writing a file anew** renews the file at the path, or makes one. -/
theorem renews_of_write {found : Option Status} (hs : d.status path = .ok found)
    (hk : ∀ st, found = some st → st.kind = .file)
    (h : d.write now path data overwrite = (.ok (), d')) :
    ∃ place, d.place? path = some place ∧ d.tree.Renews d'.tree place data :=
  renews_of_clear_write (fun _ _ hp hnode => file_of_status hs hk hp hnode) h

/-- **Appending** renews the file at the path, if a file is reported there. -/
theorem renews_of_append {st : Status} (hs : d.status path = .ok (some st)) (hk : st.kind = .file)
    (h : d.append now path data = .ok d') : ∃ place former, d.place? path = some place ∧
      d.content path = .ok former ∧ d.tree.Renews d'.tree place (former ++ data) := by
  obtain ⟨way, hw, happ⟩ := append_eq_ok h
  obtain ⟨way', entry, hw', hstat, -⟩ := status_eq_some hs
  obtain rfl : way = way' := Except.ok.inj (hw.symm.trans hw')
  obtain ⟨place, hp, hfind⟩ := HostTree.stat_eq_ok.mp hstat
  have hplace := place?_eq_some hw hp
  have hnode : d.tree.node? place = some entry.node := HostTree.node?_eq_some.mpr ⟨_, hfind, rfl⟩
  obtain ⟨former, hfile⟩ := file_of_status hs (by simpa using hk) hplace hnode
  rw [hfile] at hnode
  have hfollow := HostTree.placeOf_follow hp (by simp [hnode])
  obtain ⟨there, content, hthere, hcontent, hrenews⟩ := HostTree.renews_of_append happ
  obtain rfl : place = there := Except.ok.inj (hfollow.symm.trans hthere)
  obtain rfl : content = former := by simpa [hnode] using hcontent.symm
  exact ⟨place, content, hplace, content_of_place? hplace hnode, hrenews⟩

end Disk

/-! ## Tables -/

namespace Table

variable {t t' : Table} {now : Instant} {key other path : String} {names : List String}
variable {content data : Bytes} {overwrite : Bool} {row : Row}

/-- The table `t'` is `t` but for the row of a file with this content, under a key other than the
root's that had none or the row of a file. -/
structure Renews (t t' : Table) (key : String) (content : Bytes) : Prop where
  ne_root : key ≠ "/"
  old : ∀ row, t.find key = .ok (some row) → row.kind = .file
  row : ∃ row st, t'.find key = .ok (some row) ∧ row.kind = .file ∧
    row.content = some content ∧ row.size = content.length ∧ row.status = .ok st
  find : ∀ other, other ≠ key → t'.find other = t.find other
  kept : ∀ other, other ≠ key → t'.rowsAt other = t.rowsAt other

/-- What is found after the rows under one key have been changed. -/
theorem find_modify {f : Row → Row} (hf : ∀ r, (f r).path = r.path) : (t.modify key f).find other =
    (t.find other).map (Option.map fun r => if r.path == key then f r else r) := by
  have hpath : (fun r : Row => r.path == other) ∘ (fun r => if r.path == key then f r else r) =
      fun r : Row => r.path == other := by
    funext r
    rw [Function.comp_apply]
    split
    · rw [hf]
    · rfl
  obtain ⟨rows? | rows'⟩ := t
  · rfl
  · change Except.ok (List.find? _ (rows'.map _)) = _
    rw [List.find?_map, hpath]
    rfl

theorem find_modify_self {f : Row → Row} (hf : ∀ r, (f r).path = r.path)
    (h : t.find key = .ok (some row)) : (t.modify key f).find key = .ok (some (f row)) := by
  rw [find_modify hf, h]
  simp [Except.map, (find_eq_some h).2]

theorem find_modify_of_ne {f : Row → Row} (hf : ∀ r, (f r).path = r.path) (hne : other ≠ key) :
    (t.modify key f).find other = t.find other := by
  rw [find_modify hf]
  cases h : t.find other with
  | error e => rfl
  | ok row? =>
    cases row? with
    | none => rfl
    | some row =>
      simp [Except.map, (find_eq_some h).2, hne]

theorem find_insert_of_ne {kind : Kind} {content : Option Bytes} {target : Option String}
    (h : t.insert now key kind content target = .ok t') (hne : other ≠ key) :
    t'.find other = t.find other := by
  obtain ⟨rows, row, hall, rfl, -, hpath, -⟩ := insert_eq_ok h
  have hrow : (row.path == other) = false := by simpa [hpath] using hne.symm
  rw [find_some, Table.find, hall, List.find?_append]
  simp [hrow, bind, Except.bind, pure, Except.pure]

/-- A row is still reported when its content is changed. -/
theorem status_of_changed {row' : Row} {st : Status} (h : row.status = .ok st)
    (hpath : row'.path = row.path) (htarget : row'.target = row.target) :
    ∃ st', row'.status = .ok st' := by
  obtain ⟨p, target, hread, hfound, -⟩ := Row.status_eq_ok.mp h
  exact ⟨_, Row.status_eq_ok.mpr
    ⟨p, target, hpath ▸ hread, (Row.destination_congr htarget).trans hfound, rfl⟩⟩

/-- Where nothing or a file is reported, there is no row or that of a file, and no root. -/
theorem find_of_reported {found : Option Status} (hkey : Table.key path = .ok key)
    (hs : t.status path = .ok found) (hk : ∀ st, found = some st → st.kind = .file) :
    key ≠ "/" ∧ ∃ row?, t.find key = .ok row? ∧ ∀ row, row? = some row →
      row.kind = .file ∧ ∃ st, row.status = .ok st := by
  obtain ⟨key', hkey', ⟨-, rfl⟩ | ⟨hne, hfind, -⟩ | ⟨hne, row, st, hfind, hst, rfl⟩⟩ :=
    status_cases hs
  · cases hk rootStatus rfl
  · cases hkey.symm.trans hkey'
    exact ⟨hne, none, hfind, by simp⟩
  · cases hkey.symm.trans hkey'
    refine ⟨hne, some row, hfind, ?_⟩
    rintro _ ⟨⟩
    exact ⟨(Row.kind_of_status hst).symm.trans (hk st rfl), st, hst⟩

theorem content_of_find (hkey : Table.key path = .ok key) (hfind : t.find key = .ok (some row))
    (hk : row.kind = .file) : t.content path = .ok (row.content.getD []) := by
  have hdirectory : ¬row.kind = .directory := by simp [hk]
  unfold Table.content findFile
  simp only [hkey, hfind, if_neg hdirectory, bind, Except.bind, pure, Except.pure]

/-- A changed row of a file renews it. -/
theorem renews_of_modify {f : Row → Row} {st : Status} (hne : key ≠ "/")
    (hfind : t.find key = .ok (some row)) (hk : row.kind = .file) (hs : row.status = .ok st)
    (hpath : ∀ r, (f r).path = r.path)
    (hrow : (f row).kind = row.kind ∧ (f row).target = row.target ∧
      (f row).content = some content ∧ (f row).size = content.length) :
    t.Renews (t.modify key f) key content := by
  obtain ⟨hkind, htarget, hcontent, hsize⟩ := hrow
  obtain ⟨st', hs'⟩ := status_of_changed hs (hpath row) htarget
  refine ⟨hne, fun other hother => ?_, ?_, fun other => find_modify_of_ne hpath,
    fun other => rowsAt_modify hpath⟩
  · obtain rfl : row = other := Option.some.inj (Except.ok.inj (hfind.symm.trans hother))
    exact hk
  · exact ⟨f row, st', find_modify_self hpath hfind, hkind.trans hk, hcontent, hsize, hs'⟩

/-- A new row of a file renews a key that had none. -/
theorem renews_of_insert (hn : ∀ n ∈ names, Ordinary n)
    (hkey : Table.key (rootText names) = .ok key) (hne : key ≠ "/")
    (h : t.insert now key .file (some content) none = .ok t') : t.Renews t' key content := by
  obtain ⟨rows, row, hall, rfl, hnone, hpath, hkind, htarget⟩ := insert_eq_ok h
  obtain ⟨parent, name, -, hrows⟩ := row_of_insert h
  have hrow : [row] = _ := List.append_cancel_left ((rows_of_all hall) ▸ hrows)
  obtain ⟨p, hread, rfl⟩ := map_eq_ok.mp hkey
  have hagain : Path.read row.path = .ok ⟨{}, settle p.segments, true⟩ := by
    rw [hpath, ← read_settled hn hread, eq_of_read_rootText hn hread]
    rfl
  obtain ⟨st, hst⟩ : ∃ st, row.status = .ok st :=
    ⟨_, Row.status_eq_ok.mpr ⟨_, none, hagain, Row.destination_of_none htarget, rfl⟩⟩
  have hfree : rows.find? (·.path == p.localText) = none := by
    rw [← rows_of_all hall]
    exact find_eq_ok hnone
  refine ⟨hne, fun other hother => ?_, ⟨row, st, ?_, hkind, ?_, ?_, hst⟩,
    fun other => find_insert_of_ne h, fun other => rowsAt_insert h⟩
  · cases hnone.symm.trans hother
  · rw [find_some, List.find?_append, hfree]
    simp [hpath]
  · rw [List.singleton_inj.mp hrow]
  · rw [List.singleton_inj.mp hrow]
    rfl

/-- **Writing a file anew** renews the row under the key of the path, or adds one. -/
theorem renews_of_write {found : Option Status} (hn : ∀ n ∈ names, Ordinary n)
    (hs : t.status (rootText names) = .ok found) (hk : ∀ st, found = some st → st.kind = .file)
    (h : t.write now (rootText names) data overwrite = .ok t') :
    ∃ key, Table.key (rootText names) = .ok key ∧ t.Renews t' key data := by
  obtain ⟨key, hkey, hcases⟩ := write_cases h
  obtain ⟨hne, row?, hfind, hfile⟩ := find_of_reported hkey hs hk
  refine ⟨key, hkey, ?_⟩
  rcases hcases with hinsert | ⟨row, hrow, -, -, rfl⟩
  · exact renews_of_insert hn hkey hne hinsert
  · obtain rfl : row? = some row := Except.ok.inj (hfind.symm.trans hrow)
    obtain ⟨hkind, st, hst⟩ := hfile row rfl
    exact renews_of_modify hne hrow hkind hst (fun _ => rfl) ⟨rfl, rfl, rfl, rfl⟩

/-- **Appending** renews the row under the key of the path, if a file is reported there. -/
theorem renews_of_append {st : Status} (hs : t.status path = .ok (some st)) (hk : st.kind = .file)
    (h : t.append now path data = .ok t') : ∃ key former, Table.key path = .ok key ∧
      t.content path = .ok former ∧ t.Renews t' key (former ++ data) := by
  obtain ⟨key, row, hkey, hrow, -, rfl⟩ := append_eq_ok h
  obtain ⟨hne, row?, hfind, hfile⟩ := find_of_reported hkey hs (by simpa using hk)
  obtain rfl : row? = some row := Except.ok.inj (hfind.symm.trans hrow)
  obtain ⟨hkind, st, hst⟩ := hfile row rfl
  exact ⟨key, row.content.getD [], hkey, content_of_find hkey hrow hkind,
    renews_of_modify hne hrow hkind hst (fun _ => rfl) ⟨rfl, rfl, rfl, rfl⟩⟩

namespace Renews

variable (h : t.Renews t' key content)

include h

/-- What was reported of anything but a file is reported as it was. -/
theorem status_of_kind {path : String} {st : Status} (hs : t.status path = .ok (some st))
    (hk : st.kind ≠ .file) : t'.status path = .ok (some st) := by
  obtain ⟨other, hother, ⟨rfl, hroot⟩ | ⟨-, -, hnone⟩ | ⟨hne, row, st', hfind, hst, heq⟩⟩ :=
    status_cases hs
  · rw [hroot, status_of_root hother]
  · cases hnone
  cases heq
  have hkey : other ≠ key := by
    rintro rfl
    exact hk ((Row.kind_of_status hst).trans (h.old row hfind))
  rw [status_of_find hother hne ((h.find other hkey).trans hfind), Option.elim_some, hst]
  rfl

/-- The file is reported with the length of its content. -/
theorem status_eq (hkey : Table.key path = .ok key) :
    ∃ st, t'.status path = .ok (some st) ∧ st.kind = .file ∧ st.size = content.length := by
  obtain ⟨row, st, hfind, hkind, -, hsize, hst⟩ := h.row
  refine ⟨st, ?_, (Row.kind_of_status hst).trans hkind, ?_⟩
  · rw [status_of_find hkey h.ne_root hfind, Option.elim_some, hst]
    rfl
  · obtain ⟨p, target, -, -, rfl⟩ := Row.status_eq_ok.mp hst
    exact (if_pos hkind).trans hsize

theorem content_eq (hkey : Table.key path = .ok key) : t'.content path = .ok content := by
  obtain ⟨row, st, hfind, hkind, hcontent, -, -⟩ := h.row
  rw [content_of_find hkey hfind hkind, hcontent, Option.getD_some]

end Renews

end Table

end MountSpace
