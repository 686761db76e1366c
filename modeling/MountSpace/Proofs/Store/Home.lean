import MountSpace.Proofs.Path.Reading
import MountSpace.Proofs.Store.Edits

/-!
# The home of a disk

Taking an entry away leaves the home of a disk, unless the path of the entry is read as the root.

## Main definitions

* `Disk.Homed` — the home is a directory, and its name and way are not too long.

Main statements: `Disk.rooted_iff`, `Disk.Homed.delete`, `Disk.Homed.move`.
-/

namespace MountSpace

open MountSpace.Path

/-! ## Nodes as they are reported -/

/-- The kind under which a node is reported. -/
def Node.kind : Node → Kind
  | .file _ => .file
  | .directory => .directory
  | .link _ => .link

/-- The size under which a node is reported. -/
def Node.size : Node → ℕ
  | .file content => content.length
  | _ => 0

/-- What the text of a link is read as. -/
def Node.target : Node → Except Error (Option Path)
  | .link text => some <$> Path.read text
  | _ => .ok none

theorem Node.kind_file_iff {node : Node} : node.kind = .file ↔ ∃ content, node = .file content := by
  cases node <;> simp [kind]

theorem Node.kind_directory_iff {node : Node} : node.kind = .directory ↔ node = .directory := by
  cases node <;> simp [kind]

theorem Node.target_eq_some {node : Node} {target : Path} (h : node.target = .ok (some target)) :
    ∃ text, node = .link text ∧ Path.read text = .ok target := by
  cases node with
  | file | directory => cases h
  | link text =>
    obtain ⟨found, hread, heq⟩ := map_eq_ok.mp h
    cases heq
    exact ⟨text, rfl, hread⟩

namespace Disk

variable {d : Disk} {now : Instant} {path : String} {names way : List String}

/-- The home is a directory from which ways can start. -/
def Homed (d : Disk) : Prop := d.tree.Base home

theorem home_ordinary : Ordinary home := by decide

theorem Homed.of_stay {d' : Disk} (h : d.Homed)
    (hstay : HostTree.DirectoriesStay d.tree d'.tree) : d'.Homed :=
  HostTree.Base.of_stay h hstay

/-! ## Reports -/

theorem status_eq_some {status : Status} (h : d.status path = .ok (some status)) :
    ∃ way entry, d.way path = .ok way ∧ d.tree.stat false way = .ok entry ∧
      report path entry = .ok status := by
  unfold Disk.status at h
  obtain ⟨way, hway, h⟩ := bind_eq_ok.mp h
  split at h
  · rename_i entry hstat
    obtain ⟨found, hreport, h⟩ := bind_eq_ok.mp h
    cases h
    exact ⟨way, entry, hway, hstat, hreport⟩
  · cases h
  · cases h
  · cases h

/-- Nothing is reported when the host finds nothing, on the way or at its end. -/
theorem status_eq_none (h : d.status path = .ok none) :
    ∃ way cause, d.way path = .ok way ∧ d.tree.stat false way = .error cause ∧
      (cause = .noEntry ∨ cause = .notDirectory) := by
  obtain ⟨way, hway, h⟩ := bind_eq_ok.mp h
  split at h
  · obtain ⟨found, -, h⟩ := bind_eq_ok.mp h
    cases h
  · exact ⟨way, _, hway, by assumption, .inl rfl⟩
  · exact ⟨way, _, hway, by assumption, .inr rfl⟩
  · cases h

/-- What is reported of an entry is what it is, and when. -/
theorem report_eq_ok {entry : HostEntry} {status : Status} : report path entry = .ok status ↔
    ∃ p target, Path.read path = .ok p ∧ entry.node.target = .ok target ∧
      status = ⟨p, entry.node.kind, entry.node.size, some entry.accessed, some entry.modified,
        target⟩ := by
  unfold report
  cases entry.node with
  | file | directory =>
    cases Path.read path <;>
      simp [Node.target, Node.kind, Node.size, bind, Except.bind, pure, Except.pure, eq_comm]
  | link text =>
    cases htext : Path.read text <;> cases Path.read path <;>
      simp [htext, Node.target, Node.kind, Node.size, bind, Except.bind, pure, Except.pure,
        Functor.map, Except.map, eq_comm]

theorem read_of_report {entry : HostEntry} {status : Status}
    (h : report path entry = .ok status) : Path.read path = .ok status.path := by
  obtain ⟨p, target, hread, -, rfl⟩ := report_eq_ok.mp h
  exact hread

theorem kind_of_report {entry : HostEntry} {status : Status}
    (h : report path entry = .ok status) : status.kind = entry.node.kind := by
  obtain ⟨p, target, -, -, rfl⟩ := report_eq_ok.mp h
  rfl

theorem directory_of_report {entry : HostEntry} {status : Status}
    (h : report path entry = .ok status) (hk : status.kind = .directory) :
    entry.node = .directory :=
  Node.kind_directory_iff.mp ((kind_of_report h).symm.trans hk)

/-- The target of a link is reported as its text is read. -/
theorem text_of_report {entry : HostEntry} {status : Status} (h : report path entry = .ok status)
    {target : Path} (ht : status.target = some target) :
    ∃ text, entry.node = .link text ∧ Path.read text = .ok target := by
  obtain ⟨p, found, -, htarget, rfl⟩ := report_eq_ok.mp h
  obtain rfl : found = some target := ht
  exact Node.target_eq_some htarget

section

variable {entry : HostEntry} {p : Path}

theorem report_file {content : Bytes} (hnode : entry.node = .file content)
    (hread : Path.read path = .ok p) : report path entry =
      .ok ⟨p, .file, content.length, some entry.accessed, some entry.modified, none⟩ := by
  refine report_eq_ok.mpr ⟨p, none, hread, ?_, ?_⟩ <;> rw [hnode] <;> rfl

theorem report_directory (hnode : entry.node = .directory) (hread : Path.read path = .ok p) :
    report path entry =
      .ok ⟨p, .directory, 0, some entry.accessed, some entry.modified, none⟩ := by
  refine report_eq_ok.mpr ⟨p, none, hread, ?_, ?_⟩ <;> rw [hnode] <;> rfl

theorem report_link {text : String} (hnode : entry.node = .link text)
    (hread : Path.read path = .ok p) {st : Status} :
    report path entry = .ok st ↔ ∃ target, Path.read text = .ok target ∧
      st = ⟨p, .link, 0, some entry.accessed, some entry.modified, some target⟩ := by
  rw [report_eq_ok, hnode]
  cases htext : Path.read text <;>
    simp [hread, htext, Node.target, Node.kind, Node.size, Functor.map, Except.map]

end

theorem target_normal {status : Status} (h : d.status path = .ok (some status)) {target : Path}
    (ht : status.target = some target) : target.Normal := by
  obtain ⟨way, entry, -, -, hreport⟩ := status_eq_some h
  obtain ⟨text, -, hread⟩ := text_of_report hreport ht
  exact normal_of_read hread

/-! ## Ways -/

/-- The way of a path goes from the home along its names, if they pass the check for links. -/
theorem way_eq_ok : d.way path = .ok way ↔ ∃ p, Path.read path = .ok p ∧
    d.checkWay path [] p.segments = .ok () ∧ way = home :: p.segments := by
  constructor
  · intro h
    obtain ⟨p, hread, h⟩ := bind_eq_ok.mp h
    obtain ⟨⟨⟩, hc, h⟩ := bind_eq_ok.mp h
    cases h
    exact ⟨p, hread, hc, rfl⟩
  · rintro ⟨p, hread, hc, rfl⟩
    simp only [Disk.way, hread, hc, bind, Except.bind]
    rfl

/-- What is reported of a path is what stands where its way leads. -/
theorem status_of_placeOf (hw : d.way path = .ok way) {place : Place}
    (hp : d.tree.placeOf false way = .ok place) : d.status path = match d.tree.find? place with
      | some entry => some <$> report path entry
      | none => .ok none := by
  unfold Disk.status HostTree.stat
  simp only [hw, hp, bind, Except.bind]
  cases d.tree.find? place with
  | none => rfl
  | some entry =>
    dsimp only
    cases report path entry <;> rfl

/-- A way that passes the check for links is straight. -/
theorem straight_of_checkWay {done rest : List String} (ho : ∀ n ∈ rest, Ordinary n)
    (hthrough : ∀ follow names, names ≠ [] →
      d.tree.advance follow [] (home :: done ++ names) =
        d.tree.advance follow (home :: done) names)
    (hc : d.checkWay path done rest = .ok ()) : d.tree.Straight (home :: done) rest := by
  induction rest generalizing done with
  | nil => trivial
  | cons name rest ih =>
    rcases rest with - | ⟨second, rest⟩
    · trivial
    have hname := ho name (by simp)
    rw [checkWay] at hc
    swap
    · simp
    by_cases hlong : d.tree.limits.refusesName name = true
    · exact .inl hlong
    have hhere : home :: (done ++ [name]) = (home :: done) ++ [name] := rfl
    -- The check looks at the entry to which the walk leads.
    have hstat : ∀ entry, d.tree.find? ((home :: done) ++ [name]) = some entry →
        d.tree.stat false (home :: (done ++ [name])) = .error .nameTooLong ∨
          d.tree.stat false (home :: (done ++ [name])) = .ok entry := by
      intro entry hfind
      have hwalk : d.tree.advance false [] (home :: (done ++ [name])) =
          .at_ ((home :: done) ++ [name]) := by
        rw [hhere, hthrough false [name] (by simp), HostTree.advance_last hname,
          if_neg hlong]
        split <;> rfl
      by_cases hway : d.tree.limits.refusesWay (home :: (done ++ [name])) = true
      · exact .inl (HostTree.stat_of_refused hway)
      · exact .inr (HostTree.stat_eq_ok.mpr ⟨_, HostTree.placeOf_eq_ok.mpr
          ⟨by simpa using hway, HostTree.locate_of_at hwalk⟩, hfind⟩)
    split at hc
    · cases hc
    · cases hc
    rename_i hlink hfits
    refine .inr ⟨fun text hnode => ?_, fun hnode => ?_⟩
    · obtain ⟨⟨node, accessed, modified⟩, hfind, rfl⟩ := HostTree.node?_eq_some.mp hnode
      rcases hstat _ hfind with hs | hs
      · exact hfits hs
      · exact hlink _ _ _ hs
    · have hon : ∀ follow more, more ≠ [] →
          d.tree.advance follow [] (home :: (done ++ [name]) ++ more) =
            d.tree.advance follow (home :: (done ++ [name])) more := by
        intro follow more hne
        have hstep : home :: (done ++ [name]) ++ more = home :: done ++ name :: more := by simp
        rw [hstep, hthrough follow (name :: more) (by simp), HostTree.advance_cons hname hne,
          if_neg hlong, hnode]
        rfl
      exact ih (fun n hn => ho n (by simp [List.mem_cons.mp hn])) hon hc

theorem Homed.way_eq (h : d.Homed) (hn : ∀ n ∈ names, Ordinary n)
    (hw : d.way (rootText names) = .ok way) :
    way = home :: settle names ∧ d.tree.Straight [home] (settle names) := by
  obtain ⟨p, hread, hc, rfl⟩ := way_eq_ok.mp hw
  obtain rfl := eq_of_read_rootText hn hread
  exact ⟨rfl, straight_of_checkWay (settle_ordinary hn)
    (fun follow more hne => h.advance follow hne) hc⟩

/-! ## Operations that take an entry away -/

theorem Homed.remove (h : d.Homed) (hs : d.tree.Straight [home] names)
    (ho : ∀ n ∈ names, Ordinary n) (hne : names ≠ []) (now : Instant) (path : String)
    (recursive : Bool) : (d.remove now path (home :: names) recursive).2.Homed ∧
      HostTree.Shrinks d.tree (d.remove now path (home :: names) recursive).2.tree := by
  unfold Disk.remove
  split
  · exact ⟨h, .refl _⟩
  split
  · exact HostTree.Base.removeTree h hs ho hne
  dsimp only
  split
  · rename_i t hr
    split at hr
    · exact HostTree.Base.removeDirectory h hs ho hne (mapError_eq_ok.mp hr)
    · exact HostTree.Base.unlink h hs ho hne (mapError_eq_ok.mp hr)
  · exact ⟨h, .refl _⟩

/-- **Deleting keeps the home** unless the path is read as the root. -/
theorem Homed.delete (h : d.Homed) (hn : ∀ n ∈ names, Ordinary n) (hne : settle names ≠ [])
    (now : Instant) (recursive : Bool) :
    (d.delete now (rootText names) recursive).2.Homed := by
  unfold Disk.delete
  split
  · exact h
  rename_i way hw
  obtain ⟨rfl, hs⟩ := h.way_eq hn hw
  split
  · exact (h.remove hs (settle_ordinary hn) hne now _ recursive).1
  · exact h

theorem Homed.isThere (h : d.Homed) : d.tree.isThere [home] = true := by
  obtain ⟨entry, hs, -⟩ := HostTree.Base.stat_nil h
  rw [HostTree.isThere, hs]

/-- A home that holds an entry is not taken away to be replaced. -/
theorem Homed.remove_home (h : d.Homed) (hne : names ≠ []) {entry : HostEntry}
    (hfind : d.tree.find? (home :: names) = some entry) (now : Instant) (path : String) :
    ∃ e, d.remove now path [home] false = (.error e, d) := by
  obtain ⟨root, hs, hk⟩ := HostTree.Base.stat_nil h
  obtain ⟨cause, hfull⟩ := HostTree.removeDirectory_full hne hfind
  unfold Disk.remove
  rw [hs]
  dsimp only
  rw [if_neg (by simp), if_pos hk, hfull]
  exact ⟨_, rfl⟩

theorem read_of_status {found : Option Status} (hs : d.status path = .ok found) :
    ∃ p, Path.read path = .ok p := by
  unfold Disk.status at hs
  obtain ⟨way, hw, -⟩ := bind_eq_ok.mp hs
  obtain ⟨p, hread, -⟩ := way_eq_ok.mp hw
  exact ⟨p, hread⟩

/-- What is reported at a path is at the place that its names spell. -/
theorem Homed.find?_of_status (h : d.Homed) (hn : ∀ n ∈ names, Ordinary n) {status : Status}
    (hs : d.status (rootText names) = .ok (some status)) :
    ∃ entry, d.tree.find? (home :: settle names) = some entry := by
  obtain ⟨way, entry, hw, hstat, -⟩ := status_eq_some hs
  obtain ⟨rfl, hstraight⟩ := h.way_eq hn hw
  obtain ⟨place, hp, hfind⟩ := HostTree.stat_eq_ok.mp hstat
  rw [HostTree.Base.place_eq h hstraight (settle_ordinary hn) hp] at hfind
  exact ⟨entry, hfind⟩

/-- **Moving keeps the home** when there is something to move and its path is not read as the
root. -/
theorem Homed.move (h : d.Homed) {dest : List String} (hn : ∀ n ∈ names, Ordinary n)
    (hd : ∀ n ∈ dest, Ordinary n) (hne : settle names ≠ []) {status : Status}
    (hs : d.status (rootText names) = .ok (some status)) (now : Instant) (overwrite : Bool) :
    (d.move now (rootText names) (rootText dest) overwrite).2.Homed := by
  unfold Disk.move
  split
  · exact h
  · exact h
  rename_i srcWay destWay hsrc hdest
  obtain ⟨rfl, hstraight⟩ := h.way_eq hn hsrc
  obtain ⟨rfl, hstraight'⟩ := h.way_eq hd hdest
  dsimp only
  split
  · exact h
  by_cases hroot : settle dest = []
  · obtain ⟨entry, hfind⟩ := h.find?_of_status hn hs
    obtain ⟨e, hremove⟩ := h.remove_home hne hfind now (rootText dest)
    rw [hroot, h.isThere, if_pos rfl, hremove]
    exact h
  -- What stands at the destination is taken away before the move.
  have hcleared : (if d.tree.isThere (home :: settle dest) = true then
        d.remove now (rootText dest) (home :: settle dest) false else (.ok (), d)).2.Homed ∧
      HostTree.Shrinks d.tree (if d.tree.isThere (home :: settle dest) = true then
        d.remove now (rootText dest) (home :: settle dest) false else (.ok (), d)).2.tree := by
    split
    · exact h.remove hstraight' (settle_ordinary hd) hroot now _ false
    · exact ⟨h, .refl _⟩
  rcases hc : (if d.tree.isThere (home :: settle dest) = true then
    d.remove now (rootText dest) (home :: settle dest) false else (.ok (), d)) with ⟨cleared, mid⟩
  rw [hc] at hcleared
  obtain ⟨hmid, hshrinks⟩ := hcleared
  dsimp only
  split
  · exact hmid
  split
  · rename_i hmove
    exact HostTree.Base.move hmid (hstraight.of_shrinks hshrinks) (hstraight'.of_shrinks hshrinks)
      (settle_ordinary hn) (settle_ordinary hd) hne hroot hmove
  · exact hmid

/-! ## The root of a disk -/

theorem read_root : Path.read "/" = .ok ⟨{}, [], true⟩ := by decide +kernel

theorem way_root (d : Disk) : d.way "/" = .ok [home] :=
  way_eq_ok.mpr ⟨_, read_root, rfl, rfl⟩

/-- A disk reports its root as a directory exactly when its home is one. -/
theorem rooted_iff : (∃ status, d.status "/" = .ok (some status) ∧ status.kind = .directory) ↔
    d.Homed := by
  constructor
  · rintro ⟨status, hs, hk⟩
    obtain ⟨way, entry, hw, hstat, hreport⟩ := status_eq_some hs
    rw [way_root] at hw
    cases hw
    obtain ⟨place, hp, hfind⟩ := HostTree.stat_eq_ok.mp hstat
    obtain ⟨hway, hname, rfl⟩ := HostTree.placeOf_last home_ordinary hp
    refine ⟨home_ordinary, hway, hname, ?_⟩
    rw [HostTree.node?, hfind, Option.map_some, directory_of_report hreport hk]
  · intro h
    obtain ⟨entry, hfind, hnode⟩ := HostTree.node?_eq_some.mp (HostTree.Base.node h)
    rw [status_of_placeOf d.way_root (HostTree.Base.placeOf_nil h), hfind]
    exact ⟨_, congrArg (some <$> ·) (report_directory hnode read_root), rfl⟩

end Disk

end MountSpace
