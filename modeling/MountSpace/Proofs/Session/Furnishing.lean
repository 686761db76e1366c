import MountSpace.Proofs.Resolve.Names
import MountSpace.Proofs.Session.Gains

/-!
# Making entries with their directories

A directory, a file or a link may be made together with the directories above it.  They are those of
the path to which the given one leads, so they may be on another mount, or beyond a link that led
nowhere.  Afterwards there are directories all the way, nothing has come but what lies on that path,
and nothing has gone or changed, the times of directories of the host aside.

## Main definitions

* `Making` — an entry that is made together with the directories above it.
* `Mount.Founded` — whatever a mount holds is held by a directory.
* `Session.Unpadded` — no name ends with a blank, on the path or where links send it.
* `Session.Furnished` — what is left of a request to make an entry with its directories.

Main statement: `Session.furnished_of_making`.
-/

namespace MountSpace

open MountSpace.Path

/-- An entry that is made together with the directories above it. -/
inductive Making
  /-- A directory. -/
  | directory
  /-- A file, which may be there already if it may be overwritten. -/
  | file (overwrite : Bool)
  /-- A link. -/
  | link (target : PathArg)

namespace Making

variable {s : Session} {arg : PathArg} {site after : Site}

/-- Makes the entry; nothing is written to a file. -/
def work (s : Session) (arg : PathArg) : Making → Work Unit
  | directory => s.makeDirectory arg true
  | file overwrite => do
    let _ ← s.createFile arg overwrite true
  | link target => s.makeLink target arg true

/-- A link in the last place is followed, unless a link is made. -/
def follows : Making → Bool
  | link _ => false
  | _ => true

/-- The mount makes the entry at a path. -/
def MadeBy (m : Mount) (path : String) (site after : Site) : Making → Prop
  | directory => (m.within fun c => c.makeDirectory path).eval site = (.ok (), after)
  | file overwrite => (m.within fun c => c.write path [] overwrite).eval site = (.ok (), after)
  | link _ => ∃ text, (m.within fun c => c.makeLink path text).eval site = (.ok (), after)

/-- An entry that is asked for is there already, is overwritten, or is made where nothing is. -/
theorem work_cases {w : Making} (h : (w.work s arg).eval site = (.ok (), after)) :
    ∃ path r events, s.qualified arg = .ok path ∧ s.Resolves site path w.follows r ∧
      (w = directory ∧ (∃ st, r.status = some st ∧ st.kind = .directory) ∧
          after = site.told events ∨
        w = file true ∧ (∃ st, r.status = some st ∧ st.kind ≠ .directory) ∧
          (r.mount.within fun c => c.write r.path.localText [] true).eval (site.told events) =
            (.ok (), after) ∨
        r.status = none ∧ ∃ mid made later,
          (Session.prepareParent r path true).eval (site.told events) = (.ok (), mid) ∧
          w.MadeBy r.mount r.path.localText mid made ∧ after = made.told later) := by
  cases w with
  | directory =>
    rcases Session.makeDirectory_cases h with ⟨events, rfl, hok⟩ |
      ⟨path, r, events, ready, mid, hq, hr, hnone, hprep, ⟨e, -, he, -⟩ | ⟨rfl, hmade⟩⟩
    · obtain ⟨path, r, st, hq, hr, hst, hk⟩ := hok rfl
      exact ⟨path, r, events, hq, hr, .inl ⟨rfl, ⟨st, hst, hk⟩, rfl⟩⟩
    · cases he
    · exact ⟨path, r, events, hq, hr, .inr (.inr ⟨hnone, mid, after, [], hprep, hmade, by simp⟩)⟩
  | file overwrite =>
    obtain ⟨⟨stream, sink⟩, u, hcreate, hrest⟩ := Action.eval_bind_eq_ok h
    cases hrest
    obtain ⟨path, r, events, mid, hq, hr, hready, hwrite, -, -⟩ := Session.createFile_eq_ok hcreate
    refine ⟨path, r, events, hq, hr, ?_⟩
    rcases hready with ⟨hnone, hprep⟩ | ⟨hsome, rfl, rfl⟩
    · exact .inr (.inr ⟨hnone, mid, after, [], hprep, hwrite, by simp⟩)
    · exact .inr (.inl ⟨rfl, hsome, hwrite⟩)
  | link target =>
    rcases Session.makeLink_cases h with ⟨e, -, he, -⟩ |
      ⟨path, r, events, ready, mid, hq, hr, hnone, hprep,
        ⟨e, -, he, -⟩ | ⟨rfl, t, done, made, later, -, hmade, rfl, rfl⟩⟩
    · cases he
    · cases he
    · exact ⟨path, r, events, hq, hr,
        .inr (.inr ⟨hnone, mid, made, later, hprep, ⟨_, hmade⟩, rfl⟩)⟩

/-- What a mount makes where nothing is kept is new. -/
theorem MadeBy.gains {w : Making} {m : Mount} {names : List String} (hroot : m.Rooted site)
    (hp : Table.Plain names) (hne : names ≠ [])
    (hfree : ∀ spot, m.spot? (rootText names) = some spot → site.Vacant spot)
    (h : w.MadeBy m (rootText names) site after) : m.Gains site after names ∧
      (w = directory → ∀ s : Session, (s.atlas after).IsDirectory m names) := by
  cases w with
  | directory =>
    obtain ⟨hgains, hdir⟩ := Mount.gains_of_makeDirectory hroot hp hne h
    exact ⟨hgains, fun _ => hdir⟩
  | file overwrite => exact ⟨Mount.gains_of_write hroot hp hfree h, nofun⟩
  | link target =>
    obtain ⟨text, hmade⟩ := h
    exact ⟨Mount.gains_of_makeLink hroot hp hmade, nofun⟩

end Making

/-- Something on the path is kept at the spot: its end, or a directory above it but the root. -/
def Resolution.Passes (r : Resolution) (spot : Spot) : Prop :=
  ∃ front, front <+: r.path.segments ∧ front ≠ [] ∧ r.mount.spot? (rootText front) = some spot

/-- A file is overwritten that was kept at the spot, at the end of the path. -/
def Making.Overwrites (w : Making) (r : Resolution) (spot : Spot) : Prop :=
  w = .file true ∧ (∃ st, r.status = some st ∧ st.kind = .file) ∧
    r.mount.spot? r.path.localText = some spot

/-! ## Mounts in which everything is held -/

/-- Whatever the mount holds is held by a directory.  On a disk its home is one; in a table the rows
are coherent, each stored under the text of a path with the directory of the path, and no two under
one. -/
structure Mount.Founded (m : Mount) (site : Site) : Prop where
  disk : ∀ host, m.backend.storage = .disk host →
    (site.disk host).Homed ∧ (site.disk host).Grounded
  table : ∀ T, m.table? = some T → (site.table T).Sound

namespace Session

variable {s : Session} {arg : PathArg} {site after : Site} {path : Path} {follow : Bool}
variable {r : Resolution} {spot : Spot} {w : Making}

theorem Ending.storage_cases (h : s.Ending site follow r) :
    (∃ host, r.mount.backend.storage = .disk host) ∨ ∃ T, r.mount.table? = some T := by
  rcases h.arrives with ⟨-, hl, -⟩ | ⟨-, -, front, name, -, -, hl⟩
  · exact r.mount.storage_cases hl
  · exact r.mount.storage_cases hl

theorem Ending.rooted (h : s.Ending site follow r) (hf : r.mount.Founded site) :
    r.mount.Rooted site := by
  rcases h.storage_cases with ⟨host, hs⟩ | ⟨T, hT⟩
  · unfold Mount.Rooted
    rw [Mount.statusIn_disk hs]
    exact Disk.rooted_iff.mpr (hf.disk host hs).1
  · exact ⟨_, (Mount.statusIn_table hT site _).trans (Table.status_root _), rfl⟩

/-- Where a path leads to nothing, a name is missing in a directory. -/
theorem Ending.exists_missing (h : s.Ending site follow r) (hroot : r.mount.Rooted site)
    (hnone : r.status = none) : ∃ front name, front ++ [name] <+: r.path.segments ∧
      (s.atlas site).Confirmed r.mount front ∧
        (s.atlas site).lstat r.mount (front ++ [name]) = .ok none := by
  rcases h.arrives with ⟨-, hl, hc, -⟩ | ⟨-, -, front, name, hway, hc, hmissing⟩
  swap
  · exact ⟨front, name, hway.1, hc, hmissing⟩
  rcases List.eq_nil_or_concat' r.path.segments with hnil | ⟨init, last, hsplit⟩
  · obtain ⟨root, hstatus, -⟩ := hroot
    rw [hnil, hnone] at hl
    cases Except.ok.inj (hl.symm.trans hstatus)
  · rw [hsplit, hnone] at hl
    rw [hsplit, List.dropLast_concat] at hc
    exact ⟨init, last, hsplit ▸ List.prefix_rfl, hc, hl⟩

/-- Nothing is kept where a path leads to nothing. -/
theorem Ending.vacant (h : s.Ending site follow r) (hf : r.mount.Founded site)
    (hp : Table.Plain r.path.segments) (hnone : r.status = none)
    (hspot : r.mount.spot? (rootText r.path.segments) = some spot) : site.Vacant spot := by
  have hroot := h.rooted hf
  obtain ⟨front, name, hway, hc, hmissing⟩ := h.exists_missing hroot hnone
  have hfront := hp.of_prefix hway
  rcases Mount.eq_of_spot? hp hspot with ⟨host, hs, rfl⟩ | ⟨T, hT, rfl⟩
  · have hfree := Mount.find?_of_missing hs (hroot.homed hs) hfront hc hmissing
    rw [Site.vacant_place_iff, HostTree.kept?_eq_none_iff]
    exact HostTree.Grounded.free_below (hf.disk host hs).2 hfree
      (List.cons_prefix_cons.mpr ⟨rfl, hway⟩)
  · rw [Site.vacant_row_iff, Table.rowsAt_eq_nil_iff]
    intro row hrow hpath
    have hgap := Table.no_row_of_status hfront (by simp) (lstat_table hT s site _ ▸ hmissing)
    by_cases hend : front ++ [name] = r.path.segments
    · exact hgap row hrow (hpath.trans (by rw [hend]))
    · obtain ⟨dir, hdir, hdpath, -⟩ :=
        (hf.table T hT).exists_directory hp hrow hpath hway (by simp) hend
      exact hgap dir hdir hdpath

/-! ## What is left -/

/-- What is left of a request to make an entry with its directories, at the end of a path. -/
structure Furnished (s : Session) (site after : Site) (w : Making) (r : Resolution) : Prop where
  /-- There are directories all the way. -/
  ancestors : ∀ front, OnTheWay front r.path.segments → (s.atlas after).IsDirectory r.mount front
  /-- Besides what there was, there is what lies on the path, and nothing else. -/
  stands : ∀ spot, ¬after.Vacant spot ↔ ¬site.Vacant spot ∨ r.Passes spot
  /-- Nothing that was there has changed but a file that is overwritten. -/
  kept : ∀ spot, ¬site.Vacant spot → after.kept spot = site.kept spot ∨ w.Overwrites r spot
  /-- On the disks even times are the same, but of directories in which something has been made or
  overwritten. -/
  times : ∃ spots, site.Still after spots ∧
    ∀ spot ∈ spots, site.Vacant spot ∧ ¬after.Vacant spot ∨ w.Overwrites r spot

/-- Where there are directories all the way to what is kept at the end, everything on the path is
kept. -/
theorem not_vacant_of_passes (hroot : r.mount.Rooted after) (hp : Table.Plain r.path.segments)
    (hway : ∀ front, OnTheWay front r.path.segments → (s.atlas after).IsDirectory r.mount front)
    (hend : r.mount.spot? (rootText r.path.segments) = some spot → r.path.segments ≠ [] →
      ¬after.Vacant spot) (hpass : r.Passes spot) : ¬after.Vacant spot := by
  obtain ⟨front, hf, hne, hspot⟩ := hpass
  by_cases heq : front = r.path.segments
  · subst heq
    exact hend hspot hne
  · obtain ⟨st, hst, -⟩ := hway front ⟨hf, heq⟩
    exact Mount.not_vacant_of_status hroot (hp.of_prefix hf) hne hst hspot

theorem isDirectory_of_confirmed {m : Mount} {names front : List String} (hroot : m.Rooted after)
    (hc : (s.atlas after).Confirmed m names.dropLast) (hf : OnTheWay front names) :
    (s.atlas after).IsDirectory m front := by
  by_cases hne : front = []
  · rw [hne]
    exact hroot
  · exact hc front hf.prefix_dropLast hne

section Ended

variable (hroot : r.mount.Rooted site)
variable (hp : Table.Plain r.path.segments)

include hroot hp

/-- What is there already, or is overwritten, had its directories. -/
theorem Ending.furnished_of_status (h : s.Ending site follow r) {st : Status}
    (hst : r.status = some st)
    (hways : (s.atlas site).KeepsWays (s.atlas after)) {spots : List Spot}
    (hkept : ∀ spot, spot ∉ spots → after.kept spot = site.kept spot)
    (hover : ∀ spot ∈ spots, ¬site.Vacant spot ∧ ¬after.Vacant spot ∧ w.Overwrites r spot)
    (hstill : site.Still after spots) : s.Furnished site after w r := by
  obtain ⟨hparent, hl⟩ := h.of_status hst
  have hc := (h.reported hparent).2
  have hroot' : r.mount.Rooted after := hways.isDirectory (List.forall_mem_nil _) hroot
  have hc' := hways.confirmed (fun n hn => h.ordinary n (List.dropLast_subset _ hn)) hc
  refine ⟨fun front hf => isDirectory_of_confirmed hroot' hc' hf, fun spot => ?_, fun spot _ => ?_,
    spots, hstill, fun spot hspot => .inr (hover spot hspot).2.2⟩
  swap
  · by_cases hspot : spot ∈ spots
    · exact .inr (hover spot hspot).2.2
    · exact .inl (hkept spot hspot)
  have hpass : r.Passes spot → ¬site.Vacant spot :=
    not_vacant_of_passes hroot hp (fun front hf => isDirectory_of_confirmed hroot hc hf)
      fun hspot hne => Mount.not_vacant_of_status hroot hp hne hl hspot
  rw [or_iff_left_of_imp hpass]
  by_cases hspot : spot ∈ spots
  · exact iff_of_true (hover spot hspot).2.1 (hover spot hspot).1
  · rw [Site.vacant_congr (hkept spot hspot)]

omit hp in
/-- Where links are followed, what is no directory is a file below the root. -/
theorem Ending.file_of_status (h : s.Ending site true r) {st : Status} (hst : r.status = some st)
    (hk : st.kind ≠ .directory) : r.path.segments ≠ [] ∧ st.kind = .file := by
  have hne : r.path.segments ≠ [] := by
    intro hnil
    obtain ⟨root, hrootst, hdir⟩ := hroot
    have hl := (h.of_status hst).2
    rw [hnil] at hl
    cases Except.ok.inj (hl.symm.trans hrootst)
    exact hk hdir
  refine ⟨hne, ?_⟩
  rcases h.arrives with ⟨-, -, -, hlink⟩ | ⟨-, hnone, -⟩
  · cases hkind : st.kind with
    | file => rfl
    | directory => exact absurd hkind hk
    | link => exact absurd hkind (hlink rfl hne st hst)
  · cases hst.symm.trans hnone

/-- A file that is overwritten had its directories. -/
theorem Ending.furnished_of_write (h : s.Ending site true r) {events : List Event} {st : Status}
    (hst : r.status = some st) (hkind : st.kind ≠ .directory)
    (hw : (r.mount.within fun c => c.write r.path.localText [] true).eval (site.told events) =
      (.ok (), after)) : s.Furnished site after (.file true) r := by
  have hl := (h.of_status hst).2
  obtain ⟨hne, hk⟩ := h.file_of_status hroot hst hkind
  rw [h.localText_eq] at hw
  have hreported : r.mount.statusIn (site.told events) (rootText r.path.segments) =
      .ok (some st) := hl
  have hfile : ∀ found, some st = some found → found.kind = .file :=
    fun found hfound => Option.some.inj hfound ▸ hk
  obtain ⟨spot, hrenews⟩ := Mount.renews_of_write h.ordinary hreported hfile hw
  have hrenews := hrenews.of_told
  have hways : (s.atlas site).KeepsWays (s.atlas after) := hrenews.keepsWays s
  have hroot' : r.mount.Rooted after := hways.isDirectory (List.forall_mem_nil _) hroot
  have hspot := Mount.spot?_of_spotIn hroot hp hrenews.found
  obtain ⟨new, hnew, -⟩ := hrenews.status
  have hrootTold : r.mount.Rooted (site.told events) := hroot
  have hstill := Mount.still_of_write hrootTold hp hreported hfile hw hspot
  refine h.furnished_of_status hroot hp hst hways (fun other hother => ?_)
    (fun other hother => ?_) (show site.Still after [spot] from hstill)
  · exact hrenews.kept other fun heq => hother (List.mem_singleton.mpr heq)
  · obtain rfl := List.mem_singleton.mp hother
    exact ⟨Mount.not_vacant_of_status hroot hp hne hl hspot,
      Mount.not_vacant_of_status hroot' hp hne hnew hspot, rfl, ⟨st, hst, hk⟩,
      h.localText_eq ▸ hspot⟩

end Ended

/-- What is gained on the path is all that is new. -/
theorem furnished_of_gains {spots : List Spot} (hroot : r.mount.Rooted after)
    (hp : Table.Plain r.path.segments)
    (hway : ∀ front, OnTheWay front r.path.segments → (s.atlas after).IsDirectory r.mount front)
    (hgains : site.Gains after spots) (hspots : ∀ spot ∈ spots, r.Passes spot)
    (hend : ∀ spot, r.mount.spot? (rootText r.path.segments) = some spot → ¬after.Vacant spot) :
    s.Furnished site after w r where
  ancestors := hway
  stands spot := by
    constructor
    · intro hfilled
      by_cases hmem : spot ∈ spots
      · exact .inr (hspots spot hmem)
      · exact .inl (by rwa [← Site.vacant_congr (hgains.kept spot hmem)])
    · rintro (hspot | hpass)
      · rwa [Site.vacant_congr (hgains.kept_of_filled hspot)]
      · exact not_vacant_of_passes hroot hp hway (fun hspot _ => hend spot hspot) hpass
  kept spot hspot := .inl (hgains.kept_of_filled hspot)
  times := ⟨spots, hgains.still, fun spot hspot =>
    .inl ⟨hgains.vacant spot hspot, hgains.filled spot hspot⟩⟩

section Made

variable {asked : Path} {mid made : Site} {events : List Event}
variable (h : s.Ending site follow r) (hf : r.mount.Founded site)
variable (hp : Table.Plain r.path.segments)
variable (hprep : (prepareParent r asked true).eval (site.told events) = (.ok (), mid))

include h hf hp hprep

/-- Nothing is kept at the end of the path until it is made. -/
theorem Ending.vacant_of_prepareParent (hnone : r.status = none)
    (hspot : r.mount.spot? (rootText r.path.segments) = some spot) : mid.Vacant spot := by
  have hroot : r.mount.Rooted (site.told events) := h.rooted hf
  obtain ⟨spots, hgains, hspots⟩ := h.gains_of_prepareParent hroot hp hprep
  refine (Site.vacant_congr (hgains.kept spot fun hmem => ?_)).mpr (h.vacant hf hp hnone hspot)
  obtain ⟨front, hfront, hnil, heq⟩ := hspots spot hmem
  have hway := OnTheWay.of_prefix_dropLast hfront hnil
  exact hway.2 (Mount.spot?_inj (hp.of_prefix hway.1) hp heq hspot)

/-- What is made has directories all the way: a disk finds its place behind them, and in a table
they have just been made. -/
theorem Ending.directories_of_made (hmade : r.mount.Gains mid made r.path.segments)
    (hroot : r.mount.Rooted made) {front : List String} (hfront : OnTheWay front r.path.segments) :
    (s.atlas made).IsDirectory r.mount front := by
  obtain ⟨hways, ⟨spot, hspot, -⟩, hopen⟩ := hmade
  rcases h.storage_cases with ⟨host, hs⟩ | ⟨T, hT⟩
  · obtain ⟨p, hread⟩ := Mount.exists_read_of_spot? hspot
    obtain ⟨st, hst, hk⟩ := (hroot.homed hs).directory_of_open hp hread (hopen host hs) hfront
    exact ⟨st, (Mount.statusIn_disk hs made _).trans hst, hk⟩
  · have hc := h.confirmed_prepareParent hT (hf.table T hT) hp hprep
    exact isDirectory_of_confirmed hroot ((hways s).confirmed
      (fun n hn => h.ordinary n (List.dropLast_subset _ hn)) hc) hfront

/-- An entry that is made where nothing was kept is all that is new, with those of its directories
that were missing. -/
theorem Ending.furnished_of_made (hnone : r.status = none)
    (hmade : w.MadeBy r.mount r.path.localText mid made) :
    s.Furnished site made w r ∧ (s.atlas site).KeepsWays (s.atlas made) ∧
      (w = .directory → (s.atlas made).IsDirectory r.mount r.path.segments) := by
  have hroot : r.mount.Rooted (site.told events) := h.rooted hf
  have hne : r.path.segments ≠ [] := by
    obtain ⟨front, name, hway, -⟩ := h.exists_missing hroot hnone
    rintro hnil
    simp [hnil] at hway
  obtain ⟨spots, hgains, hspots⟩ := h.gains_of_prepareParent hroot hp hprep
  have hgrown := h.grows_of_prepareParent hroot hprep
  rw [h.localText_eq] at hmade
  obtain ⟨hnew, hdir⟩ := hmade.gains (hroot.of_grows hgrown) hp hne fun spot =>
    h.vacant_of_prepareParent hf hp hprep hnone
  have hways : (s.atlas site).KeepsWays (s.atlas made) :=
    (hgrown.extends s).keepsWays.trans (hnew.ways s)
  have hroot' : r.mount.Rooted made := hways.isDirectory (List.forall_mem_nil _) hroot
  obtain ⟨target, htarget, hgained⟩ := hnew.gains
  refine ⟨furnished_of_gains hroot' hp
    (fun front => h.directories_of_made hf hp hprep hnew hroot') (hgains.trans hgained).of_told
    (fun spot hmem => ?_) (fun spot hspot => ?_), hways, fun heq => hdir heq s⟩
  · rcases List.mem_append.mp hmem with hmem | hmem
    · obtain ⟨front, hfront, hnil, hspot⟩ := hspots spot hmem
      exact ⟨front, hfront.trans (List.dropLast_prefix _), hnil, hspot⟩
    · obtain rfl := List.mem_singleton.mp hmem
      exact ⟨_, List.prefix_rfl, hne, htarget⟩
  · obtain rfl : target = spot := Option.some.inj (htarget.symm.trans hspot)
    exact hgained.filled target (List.mem_singleton_self _)

end Made

/-! ## Directories that are made again -/

/-- The path leads to a directory, and to make it again, with the directories above it, changes
nothing. -/
structure Settled (s : Session) (site : Site) (arg : PathArg) : Prop where
  isDirectory : ∃ events, (s.isDirectory arg).eval site = (.ok true, site.told events)
  again : ∃ events, (s.makeDirectory arg true).eval site = (.ok (), site.told events)

theorem settled_of_resolves {st : Status} (hq : s.qualified arg = .ok path)
    (hr : s.Resolves site path true r) (hst : r.status = some st) (hk : st.kind = .directory) :
    s.Settled site arg := by
  have htrace : (s.trace site path true).outcome = .ok r := hr
  constructor
  · have hstatus : (s.status arg).eval site =
        (.ok { st with path := r.path }, ((s.status arg).eval site).2) :=
      Prod.ext (eval_status_of_resolves hq hr hst (by simp [hk])) rfl
    obtain ⟨events, hafter⟩ := (s.quiet_status arg).eval_eq hstatus
    rw [hafter] at hstatus
    refine ⟨events, ?_⟩
    unfold isDirectory hasKind
    rw [Action.eval_bind, Action.eval_attempt, hstatus]
    simp [hk]
  · refine ⟨hopReports (s.trace site path true).hops, ?_⟩
    rw [eval_makeDirectory hq hr, hst]
    simp [hk]

/-! ## Requests -/

/-- No name ends with a blank, on the completed path or on one to which a link on its way sends. -/
def Unpadded (s : Session) (site : Site) (arg : PathArg) (follow : Bool) : Prop :=
  ∀ path, s.qualified arg = .ok path → path.Among (¬EndsBlank ·) ∧
    ∀ hop ∈ (s.trace site path follow).hops, hop.onward.Among (¬EndsBlank ·)

instance (s : Session) (site : Site) (arg : PathArg) (follow : Bool) :
    Decidable (s.Unpadded site arg follow) :=
  match h : s.qualified arg with
  | .ok path => decidable_of_iff (path.Among (¬EndsBlank ·) ∧
      ∀ hop ∈ (s.trace site path follow).hops, hop.onward.Among (¬EndsBlank ·)) (by
        simp [Unpadded, h])
  | .error _ => isTrue (by simp [Unpadded, h])

theorem Unpadded.plain (h : s.Unpadded site arg follow) (hq : s.qualified arg = .ok path)
    (hr : s.Resolves site path follow r) (hend : s.Ending site follow r) :
    Table.Plain r.path.segments := by
  obtain ⟨hpath, hhops⟩ := h path hq
  have hamong : r.path.Among (¬EndsBlank ·) := by
    refine Atlas.among_of_hops ?_ hhops hr
    unfold Path.Among
    rwa [Atlas.start_segments]
  exact fun n hn => ⟨hend.ordinary n hn, hamong n hn⟩

/-- **Directories are made where they are missing, and nothing else.**  When an entry has been made
with the directories above it, there are directories all the way to it, and it and those that were
missing are all that has come; nothing else has changed, the times of directories of the host and a
file that is overwritten aside.  A directory is then found at its path, and to make it again changes
nothing.  The mounts are in order before: their entries are held by directories, and their rows are
coherent. -/
theorem furnished_of_making (hs : s.standpoint.Proper) (harg : ∀ p, arg.read = .ok p → p.Normal)
    (hpad : s.Unpadded site arg w.follows) (hf : ∀ m ∈ s.registry.mounts, m.Founded site)
    (h : (w.work s arg).eval site = (.ok (), after)) :
    (∃ path r, s.qualified arg = .ok path ∧ s.Resolves site path w.follows r ∧
      s.Furnished site after w r) ∧ (w = .directory → s.Settled after arg) := by
  obtain ⟨path, r, events, hq, hr, hcases⟩ := w.work_cases h
  have hpath := complete_of_arg hs harg hq
  have hend := hr.ending hpath.normal hpath.absolute
  have hfounded := hf r.mount (Registry.mem_of_lookup hend.owner)
  have hroot := hend.rooted hfounded
  have hp := hpad.plain hq hr hend
  rcases hcases with ⟨rfl, ⟨st, hst, hk⟩, rfl⟩ | ⟨rfl, ⟨st, hst, hk⟩, hwrite⟩ |
    ⟨hnone, mid, made, later, hprep, hmade, rfl⟩
  · refine ⟨⟨path, r, hq, hr, ?_⟩, fun _ => settled_of_resolves hq hr hst hk⟩
    have hstill : site.Still (site.told events) [] := fun _ _ _ _ => rfl
    exact hend.furnished_of_status hroot hp hst (.refl _) (fun _ _ => rfl) (List.forall_mem_nil _)
      hstill
  · exact ⟨⟨path, r, hq, hr, hend.furnished_of_write hroot hp hst hk hwrite⟩, nofun⟩
  · obtain ⟨hfurnished, hways, hdir⟩ := hend.furnished_of_made hfounded hp hprep hnone hmade
    refine ⟨⟨path, r, hq, hr, ?_⟩, ?_⟩
    · exact ⟨hfurnished.ancestors, hfurnished.stands, hfurnished.kept, hfurnished.times⟩
    · rintro rfl
      obtain ⟨st, hst, hk⟩ := hdir rfl
      have hc : (s.atlas made).Confirmed r.mount r.path.segments.dropLast := fun front hf hne =>
        hfurnished.ancestors front (.of_prefix_dropLast hf hne)
      exact settled_of_resolves hq (hr.of_keepsWays hpath hways hc hst (by simp [hk])) rfl hk

/-- The link at `/l` leads to `/a/b`, where there is nothing. -/
def hostWithDanglingLink : Site :=
  (((alone (.ofHost "h")).makeLink (.text "a/b") (.text "/l") false).eval (.emptyHost "h")).2

theorem founded_of_host {host : String} (hroot : (Mount.ofHost host).Rooted site)
    (hground : (site.disk host).Grounded) :
    ∀ m ∈ (alone (.ofHost host)).registry.mounts, m.Founded site := by
  intro m hm
  obtain rfl : m = .ofHost host := List.mem_singleton.mp hm
  refine ⟨fun other hs => ?_, nofun⟩
  obtain rfl : host = other := Storage.disk.inj hs
  exact ⟨hroot.homed rfl, hground⟩

/-- Two directories are missing behind a link, and are made with the one below them. -/
theorem furnished_behind_dangling_link :
    let s := alone (.ofHost "h")
    let site := hostWithDanglingLink
    let arg : PathArg := .text "/l/x"
    s.standpoint.Proper ∧ (∀ p, arg.read = .ok p → p.Normal) ∧
      s.Unpadded site arg Making.directory.follows ∧
      (∀ m ∈ s.registry.mounts, m.Founded site) ∧
      ∃ after, (Making.directory.work s arg).eval site = (.ok (), after) ∧
        (∃ path r, s.qualified arg = .ok path ∧
          s.Resolves site path Making.directory.follows r ∧
          s.Furnished site after .directory r) ∧
        s.Settled after arg := by
  intro s site arg
  have hs : s.standpoint.Proper := Capability.rootPath_complete _
  have harg : ∀ p, arg.read = .ok p → p.Normal := fun p hp =>
    normal_of_read (show Path.read "/l/x" = .ok p from hp)
  have hpad : s.Unpadded site arg Making.directory.follows := by decide +kernel
  have hroot : (Mount.ofHost "h").Rooted site := by decide +kernel
  have hground : (site.disk "h").tree.Grounded := by decide +kernel
  have hf := founded_of_host hroot hground
  have hmade : ((Making.directory.work s arg).eval site).1 = .ok () := by decide +kernel
  obtain ⟨after, h⟩ : ∃ after, (Making.directory.work s arg).eval site = (.ok (), after) :=
    ⟨_, Prod.ext hmade rfl⟩
  obtain ⟨hfurnished, hsettled⟩ := furnished_of_making hs harg hpad hf h
  exact ⟨hs, harg, hpad, hf, after, h, hfurnished, hsettled rfl⟩

/-- The directory at `/d` was made before now. -/
def hostWithOldDirectory : Site :=
  let made := (((alone (.ofHost "h")).makeDirectory (.text "/d") false).eval (.emptyHost "h")).2
  { made with now := ⟨1⟩ }

/-- A directory in which something is made is reported with other times than before. -/
theorem times_change_above_made_directory :
    let s := alone (.ofHost "h")
    let site := hostWithOldDirectory
    let arg : PathArg := .text "/d/x"
    s.standpoint.Proper ∧ s.Unpadded site arg true ∧ (∀ m ∈ s.registry.mounts, m.Founded site) ∧
      ∃ after, (s.makeDirectory arg true).eval site = (.ok (), after) ∧
        ((s.linkStatus (.text "/d")).eval after).1 ≠ ((s.linkStatus (.text "/d")).eval site).1 := by
  intro s site arg
  have hroot : (Mount.ofHost "h").Rooted site := by decide +kernel
  have hground : (site.disk "h").tree.Grounded := by decide +kernel
  have hmade : ((s.makeDirectory arg true).eval site).1 = .ok () := by decide +kernel
  exact ⟨Capability.rootPath_complete _, by decide +kernel, founded_of_host hroot hground, _,
    Prod.ext hmade rfl, by decide +kernel⟩

end Session

end MountSpace
