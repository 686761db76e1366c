import MountSpace.Proofs.Session.Effect
import MountSpace.Proofs.Store.Home
import MountSpace.Proofs.Store.Rows

/-!
# Where requests end

A client names an entry by a text.  Completed from a proper standpoint, the text stands for a path
from a root in normal form, and the links that stores report are in normal form as well, so all
that holds of walks holds of requests.

## Main definitions

* `Standpoint.Proper` — a working directory from which completed paths are in normal form.
* `Path.Complete` — what completing makes of a path.
* `Session.Ending` — where a request ends.

Main statement: `Session.canonical_iff_rootSound`.
-/

namespace MountSpace

/-! ## Completed paths -/

/-- A path in normal form that starts at the root of a store it names. -/
structure Path.Complete (p : Path) : Prop where
  normal : p.Normal
  absolute : p.absolute = true
  stated : p.location.isStated = true

/-- A working directory from which completed paths are in normal form. -/
def Standpoint.Proper (at_ : Standpoint) : Prop := at_.workingDirectory.Complete

theorem Capability.rootPath_complete (c : Capability) : c.rootPath.Complete where
  normal := Path.normal_of_ordinary rfl (by simp [rootPath, Path.root])
  absolute := rfl
  stated := rfl

/-- A relative path is completed to the names below the working directory. -/
theorem Standpoint.complete_of_relative {at_ : Standpoint} {p : Path}
    (hstated : at_.workingDirectory.location.isStated = true) (habs : p.absolute = false)
    (hl : p.location.isStated = false) :
    at_.complete p = at_.workingDirectory.child p.segments := by
  simp [complete, qualify, makeAbsolute, hl, habs, Path.join, hstated]

theorem Standpoint.complete_of_normal {at_ : Standpoint} (h : at_.Proper) {p : Path}
    (hp : p.Normal) : (at_.complete p).Complete := by
  cases hl : p.location.isStated with
  | true =>
    rw [complete_of_isStated hl]
    exact ⟨hp, hp.absolute_of_stated hl, hl⟩
  | false =>
  cases ha : p.absolute with
  | true =>
    have hcomplete : at_.complete p = p.withLocation at_.capability.location := by
      simp [complete, qualify, makeAbsolute, hl, ha]
    rw [hcomplete]
    exact ⟨Path.normal_of_ordinary ha (hp.ordinary ha), ha, rfl⟩
  | false =>
    rw [complete_of_relative h.stated ha hl]
    have hchild : (at_.workingDirectory.child p.segments).segments =
        at_.workingDirectory.segments.rdrop p.leadingDots ++ p.afterDots := by
      rw [Path.child, h.absolute]
      dsimp only
      rw [p.segments_eq_dots, Path.collapse_dots (h.normal.ordinary h.absolute)
        hp.afterDots_ordinary]
    refine ⟨Path.normal_of_ordinary h.absolute fun n hn => ?_, h.absolute, h.stated⟩
    rw [hchild] at hn
    rcases List.mem_append.mp hn with hn | hn
    · exact h.normal.ordinary h.absolute n (List.mem_of_mem_take hn)
    · exact hp.afterDots_ordinary n hn

/-- Every text that is accepted stands for a path in normal form. -/
theorem PathArg.normal_of_text {raw : String} (p : Path) (h : PathArg.read (.text raw) = .ok p) :
    p.Normal := by
  have hparse : Path.parse raw = .ok p := mapError_eq_ok.mp h
  exact Path.normal_of_parse hparse

/-- A path in normal form is completed to one. -/
theorem Session.complete_of_arg {s : Session} {arg : PathArg} {path : Path}
    (hs : s.standpoint.Proper) (harg : ∀ p, arg.read = .ok p → p.Normal)
    (hq : s.qualified arg = .ok path) : path.Complete := by
  obtain ⟨p, hread, rfl⟩ := map_eq_ok.mp hq
  exact Standpoint.complete_of_normal hs (harg p hread)

/-- Every text that is accepted is completed to a path in normal form. -/
theorem Session.complete_of_qualified {s : Session} (hs : s.standpoint.Proper) {raw : String}
    {path : Path} (h : s.qualified (.text raw) = .ok path) : path.Complete :=
  complete_of_arg hs PathArg.normal_of_text h

/-! ## Reported links -/

/-- Whatever stores hold, the links they report lead to paths in normal form. -/
theorem Session.targetsNormal (s : Session) (site : Site) : (s.atlas site).TargetsNormal := by
  intro m text status target h _ ht
  have hstatus : m.statusIn site text = .ok (some status) := h
  unfold Mount.statusIn Connection.statusIn at hstatus
  split at hstatus
  · exact Disk.target_normal hstatus ht
  · obtain ⟨found, -, hstatus⟩ := bind_eq_ok.mp hstatus
    exact Table.target_normal hstatus ht

namespace Session

variable {s : Session} {site : Site} {path : Path} {follow : Bool} {r : Resolution}

/-- What holds of the end of a path: a place of the mount that owns it, where a walk arrives. -/
structure Ending (s : Session) (site : Site) (follow : Bool) (r : Resolution) : Prop where
  ordinary : ∀ n ∈ r.path.segments, Ordinary n
  path_eq : r.path = r.mount.place r.path.segments
  owner : s.registry.lookup r.path r.path = .ok r.mount
  arrives : (s.atlas site).Arrives follow r.mount r.path.segments r

theorem Resolves.ending (h : s.Resolves site path follow r) (hp : path.Normal)
    (habs : path.absolute = true) : s.Ending site follow r := by
  obtain ⟨names, asked, hno, hpath, hl, -, harrives⟩ :=
    Atlas.arrives_of_resolve (s.targetsNormal site) hp habs h
  have hsegments : r.path.segments = names := by rw [hpath]; rfl
  have howner := Atlas.lookup_asked r.path hl
  rw [← hpath] at howner
  rw [← hsegments] at hno hpath harrives
  exact ⟨hno, hpath, howner, harrives⟩

/-- Below a parent that is there, the end is what the store reports, and directories lead to it. -/
theorem Ending.reported (h : s.Ending site follow r) (hparent : r.parentExists = true) :
    (s.atlas site).lstat r.mount r.path.segments = .ok r.status ∧
      (s.atlas site).Confirmed r.mount r.path.segments.dropLast := by
  rcases h.arrives with ⟨-, hl, hc, -⟩ | ⟨hfalse, -⟩
  · exact ⟨hl, hc⟩
  · cases hparent.symm.trans hfalse

/-- What is there has a parent, and is what the store reports. -/
theorem Ending.of_status (h : s.Ending site follow r) {status : Status}
    (hs : r.status = some status) :
    r.parentExists = true ∧ (s.atlas site).lstat r.mount r.path.segments = .ok (some status) := by
  rcases h.arrives with ⟨hparent, hl, -⟩ | ⟨-, hnone, -⟩
  · exact ⟨hparent, hl.trans (by rw [hs])⟩
  · cases hs.symm.trans hnone

/-- Two ends at one address lie in one mount. -/
theorem Ending.mount_eq {other : Resolution} {f g : Bool} (h : s.Ending site f r)
    (ho : s.Ending site g other) (hl : r.mount.location = other.mount.location) :
    r.mount = other.mount := by
  have hsame : s.registry.lookup other.path r.path = .ok r.mount := by
    rw [Atlas.lookup_congr (p := r.path)]
    · exact h.owner
    · rw [← Registry.location_of_lookup h.owner, ← Registry.location_of_lookup ho.owner, hl]
  have hother := Atlas.lookup_asked r.path ho.owner
  rw [hsame] at hother
  exact Except.ok.inj hother

/-- The text of an end is its names written out from a root. -/
theorem Ending.localText_eq (h : s.Ending site follow r) :
    r.path.localText = Path.rootText r.path.segments := by
  rw [h.path_eq]
  rfl

/-- **Resolved paths are canonical below a sound root.**  What resolving returns is a canonical end
that resolves to itself without meeting a link, exactly when the root of its store is what the walk
took it for. -/
theorem canonical_iff_rootSound (s : Session) (site after : Site) (path : Path) (hp : path.Normal)
    (habs : path.absolute = true) (follow : Bool) (r : Resolution)
    (h : (s.resolve path follow).eval site = (.ok r, after)) :
    (r.Canonical (s.atlas site) follow ∧
        (s.resolve r.path follow).eval site = (.ok r, site)) ↔
      r.RootSound (s.atlas site) follow := by
  have houtcome : s.Resolves site path follow r := by
    rw [eval_resolve] at h
    exact congrArg Prod.fst h
  obtain ⟨hiff, hagain⟩ := Atlas.canonical_of_resolve (s.atlas site) (s.targetsNormal site)
    s.standpoint s.maxLinks path hp habs follow r houtcome
  have hself : (s.resolve r.path follow).eval site = (.ok r, site) := by
    rw [eval_resolve, trace, hagain]
    simp [hopReports]
  rw [← hiff]
  exact ⟨fun hboth => hboth.1, fun hcanon => ⟨hcanon, hself⟩⟩

/-- A client at the root of the only mount. -/
def alone (m : Mount) : Session :=
  ⟨Registry.add {} m, 32, ⟨m.capability.rootPath, m.capability⟩⟩

end Session

/-- A directory of the host, mounted in the usual way. -/
def Mount.ofHost (host : String) : Mount :=
  .make 0 { storage := .disk host, capability := .onDisk "file" } none ""

/-- A directory of the host with nothing in it. -/
def Site.emptyHost (host : String) : Site where
  disks := [(host, Disk.fresh {} ⟨0⟩)]
  now := ⟨0⟩

namespace Session

/-- The link at `/l` leads to the directory `/d`. -/
def hostWithLink : Site :=
  let work : Work Unit := do
    (alone (.ofHost "h")).makeDirectory (.text "/d") false
    (alone (.ofHost "h")).makeLink (.text "d") (.text "/l") false
  (work.eval (.emptyHost "h")).2

/-- A missing name behind a link. -/
theorem canonical_iff_rootSound_behind_link :
    let s := alone (.ofHost "h")
    let path : Path := { location := ⟨some "file", none⟩, segments := ["l", "x"] }
    path.Normal ∧ path.absolute = true ∧ ∃ r after,
      (s.resolve path true).eval hostWithLink = (.ok r, after) ∧
      r.path = { location := ⟨some "file", none⟩, segments := ["d", "x"] } ∧
      ((r.Canonical (s.atlas hostWithLink) true ∧
          (s.resolve r.path true).eval hostWithLink = (.ok r, hostWithLink)) ↔
        r.RootSound (s.atlas hostWithLink) true) := by
  intro s path
  have hp : path.Normal := Path.normal_of_ordinary rfl (by decide)
  have hends : ((s.resolve path true).eval hostWithLink).1.toOption.map Resolution.path =
      some { location := ⟨some "file", none⟩, segments := ["d", "x"] } := by decide +kernel
  cases heval : (s.resolve path true).eval hostWithLink with
  | mk outcome after =>
  rw [heval] at hends
  cases outcome with
  | error e => cases hends
  | ok r =>
    have hpath : r.path = { location := ⟨some "file", none⟩, segments := ["d", "x"] } := by
      simpa [Except.toOption] using hends
    exact ⟨hp, rfl, r, after, rfl, hpath,
      canonical_iff_rootSound s hostWithLink after path hp rfl true r heval⟩

/-- A client has deleted the directory of the host under another spelling of the root and made a
link under it. -/
def hostReplaced : Site :=
  let work : Work Unit := do
    let _ ← (alone (.ofHost "h")).delete (.text "/ /") true
    (alone (.ofHost "h")).makeLink (.text "/x") (.text "/ /") false
  (work.eval (.emptyHost "h")).2

/-- The root that is now a link is what following links ends at. -/
theorem resolve_hostReplaced :
    let s := alone (.ofHost "h")
    ∃ r after, (s.resolve (.root ⟨some "file", none⟩) true).eval hostReplaced = (.ok r, after) ∧
      (∃ status, r.status = some status ∧ status.kind = .link) ∧
      ¬r.Canonical (s.atlas hostReplaced) true := by
  intro s
  have hkind : ((s.resolve (.root ⟨some "file", none⟩) true).eval hostReplaced).1.toOption.map
      (fun r => r.status.map Status.kind) = some (some .link) := by decide +kernel
  cases heval : (s.resolve (.root ⟨some "file", none⟩) true).eval hostReplaced with
  | mk outcome after =>
  rw [heval] at hkind
  cases outcome with
  | error e => cases hkind
  | ok r =>
    have hlink : ∃ status, r.status = some status ∧ status.kind = .link := by
      simpa [Except.toOption, Option.map_eq_some_iff] using hkind
    refine ⟨r, after, rfl, hlink, fun hcanon => ?_⟩
    obtain ⟨status, hstatus, hk⟩ := hlink
    exact hcanon.not_link rfl status hstatus hk

end Session

end MountSpace
