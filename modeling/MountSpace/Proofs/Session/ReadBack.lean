import MountSpace.Proofs.Session.Order
import MountSpace.Proofs.Session.Spots
import MountSpace.Proofs.Store.Renewal

/-!
# What is written is what is read

A file that is created, written to and closed is opened again with just the bytes that were
written, and one that is appended to with the bytes after its former content; its size is the
length of what is read.  The path may lead through links and end in a new file or an old one.
Nothing is kept otherwise anywhere else, the times of directories of the host aside.

A path that ends at a link is left out.  Links are followed, so only a root can be such an end, once
it has been replaced by a link.

## Main definitions

* `Sink.fill` — chunks are written to a stream, which is then closed.
* `Site.Idles` — nothing happens, but time may pass.
* `Mount.spotIn` — the spot at which a mount finds a path.
* `Mount.Renews` — a mount with one file made or given other content.
* `Session.EndsAtLink` — a path that ends at a link.
* `Session.Written` — a path is read back with some content.

Main statement: `Session.written_of_fill`.
-/

namespace MountSpace

open MountSpace.Path

/-! ## Filling a stream -/

/-- Writes chunks to a stream whose bytes go to the sink, and closes it. -/
def Sink.fill (sink : Sink) (chunks : List Bytes) : OutputStream.Writing Site Unit := do
  let _ ← OutputStream.writeAll chunks
  OutputStream.close sink.commit

/-- Filling a new stream hands over its chunks as one. -/
theorem Sink.eval_fill {sink : Sink} {path : Path} {chunks : List Bytes} {site after : Site}
    {closed : OutputStream}
    (h : (sink.fill chunks).eval ({ path }, site) = (.ok (), (closed, after))) :
    (sink.commit chunks.flatten).eval site = (.ok (), after) := by
  unfold fill at h
  rw [Action.eval_bind, OutputStream.eval_writeAll rfl] at h
  dsimp only at h
  rw [OutputStream.eval_close rfl, List.nil_append] at h
  dsimp only at h
  rcases hcommit : (sink.commit chunks.flatten).eval site with ⟨e | u, t⟩ <;> rw [hcommit] at h <;>
    cases h
  rfl

/-! ## Passing time -/

/-- Nothing happens, but time may pass and reports may be made. -/
def Site.Idles (site after : Site) : Prop :=
  after.disks = site.disks ∧ after.tables = site.tables

namespace Site.Idles

variable {site after : Site} (h : site.Idles after)

include h

theorem symm : after.Idles site := ⟨h.1.symm, h.2.symm⟩

theorem table (T : TableName) : after.table T = site.table T := by
  rw [Site.table, Site.table, h.2]

/-- A disk that somebody has made stays as it is; on others there are no entries but the top. -/
theorem disk (host : String) : after.disk host = site.disk host ∨
    site.disk host = .homeless {} site.now ∧ after.disk host = .homeless {} after.now := by
  unfold Site.disk
  rw [h.1]
  cases site.disks.lookup host with
  | some d => exact .inl rfl
  | none => exact .inr ⟨rfl, rfl⟩

/-- The times of directories are not among what is kept. -/
theorem kept (spot : Spot) : after.kept spot = site.kept spot := by
  cases spot with
  | row T key => rw [Site.kept, Site.kept, h.table]
  | place host place =>
    rw [Site.kept, Site.kept]
    rcases h.disk host with hsame | ⟨hbefore, hafter⟩
    · rw [hsame]
    · rw [hbefore, hafter]
      cases place <;> rfl

/-- A disk that reports anything is one that somebody has made. -/
theorem disk_eq {m : Mount} {host path : String} {st : Status}
    (hs : m.backend.storage = .disk host) (hst : m.statusIn site path = .ok (some st)) :
    after.disk host = site.disk host := by
  rcases h.disk host with hsame | ⟨hbefore, -⟩
  · exact hsame
  · rw [Mount.statusIn_disk hs, hbefore] at hst
    exact absurd hst (Disk.status_homeless {} site.now st)

end Site.Idles

/-! ## Mounts with one file renewed -/

/-- The spot at which a mount finds a path, following no link in the last place. -/
def Mount.spotIn (m : Mount) (site : Site) (path : String) : Option Spot :=
  match m.backend.storage with
  | .disk host => ((site.disk host).place? path).map (.place host)
  | .table _ => m.spot? path

/-- Afterwards the mount holds a file with this content at the path.  What other mounts and paths
lead to is there as before, files aside, and all spots but that of the file keep what they kept. -/
structure Mount.Renews (m : Mount) (site after : Site) (path : String) (spot : Spot)
    (content : Bytes) : Prop where
  found : m.spotIn site path = some spot
  still : m.spotIn after path = some spot
  status : ∃ st, m.statusIn after path = .ok (some st) ∧ st.kind = .file ∧
    st.size = content.length
  content : ((m.connection.content path).eval after).1 = .ok content
  ways : ∀ (other : Mount) way st, other.statusIn site way = .ok (some st) → st.kind ≠ .file →
    ∃ st', other.statusIn after way = .ok (some st') ∧ st'.kind = st.kind ∧ st'.target = st.target
  kept : ∀ other, other ≠ spot → after.kept other = site.kept other

namespace Mount

variable {m : Mount} {site mid after : Site} {path host : String} {names : List String}
variable {spot other : Spot} {data content : Bytes} {found : Option Status} {overwrite : Bool}
variable {T : TableName} {key : String}

theorem Renews.trans (h : m.Renews site mid path spot data)
    (h' : m.Renews mid after path other content) : m.Renews site after path spot content := by
  obtain rfl : spot = other := Option.some.inj (h.still.symm.trans h'.found)
  refine ⟨h.found, h'.still, h'.status, h'.content, fun m' way st hs hk => ?_,
    fun spot' hne => (h'.kept spot' hne).trans (h.kept spot' hne)⟩
  obtain ⟨st', hs', hkind, htarget⟩ := h.ways m' way st hs hk
  obtain ⟨st'', hs'', hkind', htarget'⟩ := h'.ways m' way st' hs' (hkind ▸ hk)
  exact ⟨st'', hs'', hkind'.trans hkind, htarget'.trans htarget⟩

theorem content_disk (hs : m.backend.storage = .disk host) (site : Site) (path : String) :
    (m.connection.content path).eval site = ((site.disk host).content path, site) := by
  simp only [Connection.content, connection, hs]
  rfl

theorem content_table (hT : m.table? = some T) (site : Site) (path : String) :
    (m.connection.content path).eval site = ((site.table T).content path, site) := by
  unfold table? at hT
  split at hT
  · rename_i hs hd
    cases hT
    simp only [Connection.content, connection, Connection.tableIn, hs, hd]
    rfl
  · cases hT

theorem Renews.keepsWays (h : m.Renews site after path spot content) (s : Session) :
    (s.atlas site).KeepsWays (s.atlas after) :=
  ⟨rfl, fun other names st _ hs hk => h.ways other (other.place names).localText st hs hk⟩

/-- A mount is renewed with its disk. -/
theorem renews_of_disk {d : Disk} {place : Place} (hs : m.backend.storage = .disk host)
    (hd : ∀ other, after.disk other = if other = host then d else site.disk other)
    (ht : ∀ T, after.table T = site.table T) (hp : (site.disk host).place? path = some place)
    (hr : (site.disk host).tree.Renews d.tree place content) :
    m.Renews site after path (.place host place) content := by
  have hafter : after.disk host = d := by rw [hd, if_pos rfl]
  have hp' : d.place? path = some place := Disk.place?_of_renews hr hp
  refine ⟨?_, ?_, ?_, ?_, fun m' way st hst hk => ?_, fun spot hne => ?_⟩
  · simp only [spotIn, hs, hp, Option.map_some]
  · simp only [spotIn, hs, hafter, hp', Option.map_some]
  · rw [statusIn_disk hs, hafter]
    exact Disk.file_of_renews hr hp
  · rw [content_disk hs, hafter]
    exact Disk.content_of_place? hp' hr.node
  · rcases m'.storage_cases hst with ⟨other, hs'⟩ | ⟨T, hT⟩
    · rw [statusIn_disk hs'] at hst ⊢
      rw [hd]
      split
      · rename_i heq
        rw [heq] at hst
        obtain ⟨st', hst', hsame⟩ := Disk.status_of_renews hr hst hk
        exact ⟨st', hst', hsame.kind, hsame.target⟩
      · exact ⟨st, hst, rfl, rfl⟩
    · rw [statusIn_table hT] at hst ⊢
      exact ⟨st, (ht T).symm ▸ hst, rfl, rfl⟩
  · refine Site.kept_of_disk hd ht fun other hother => hr.kept other ?_
    rintro rfl
    exact hne hother

/-- A mount is renewed with its table. -/
theorem renews_of_table (hT : m.table? = some T) (hd : ∀ host, after.disk host = site.disk host)
    (ho : ∀ other, other ≠ T → after.table other = site.table other)
    (hkey : Table.key path = .ok key) (hr : (site.table T).Renews (after.table T) key content) :
    m.Renews site after path (.row T key) content := by
  obtain ⟨name, hs⟩ := storage_of_table? hT
  have hspot : ∀ site, m.spotIn site path = some (.row T key) := fun site => by
    simp only [spotIn, hs, spot?_table hkey hT]
  refine ⟨hspot site, hspot after, ?_, ?_, fun m' way st hst hk => ?_, fun spot hne => ?_⟩
  · rw [statusIn_table hT]
    exact hr.status_eq hkey
  · rw [content_table hT]
    exact hr.content_eq hkey
  · rcases m'.storage_cases hst with ⟨host, hs'⟩ | ⟨other, hother⟩
    · rw [statusIn_disk hs'] at hst ⊢
      exact ⟨st, (hd host).symm ▸ hst, rfl, rfl⟩
    · rw [statusIn_table hother] at hst ⊢
      by_cases heq : other = T
      · rw [heq] at hst ⊢
        exact ⟨st, hr.status_of_kind hst hk, rfl, rfl⟩
      · exact ⟨st, (ho other heq).symm ▸ hst, rfl, rfl⟩
  · refine Site.kept_of_table hd ho fun other hother => hr.kept other ?_
    rintro rfl
    exact hne hother

/-- **Writing a file anew** renews the mount, if nothing or a file was reported at the path. -/
theorem renews_of_write (hn : ∀ n ∈ names, Ordinary n)
    (hs : m.statusIn site (rootText names) = .ok found)
    (hk : ∀ st, found = some st → st.kind = .file)
    (h : (m.within fun c => c.write (rootText names) data overwrite).eval site = (.ok (), after)) :
    ∃ spot, m.Renews site after (rootText names) spot data := by
  rcases m.storage_cases hs with ⟨host, hdisk⟩ | ⟨T, hT⟩
  · rw [statusIn_disk hdisk] at hs
    have hwork := m.connection.write_onDisk hdisk (rootText names) data overwrite
    obtain ⟨hres, hd, ht⟩ := within_onDisk hwork h
    obtain ⟨place, hp, hr⟩ := Disk.renews_of_write hs hk (Prod.ext hres rfl)
    exact ⟨_, renews_of_disk hdisk hd ht hp hr⟩
  · rw [statusIn_table hT] at hs
    obtain ⟨name, htable⟩ := storage_of_table? hT
    have hwork := m.connection.write_onTable htable (rootText names) data overwrite
    obtain ⟨hd, ⟨⟨e, he⟩, -⟩ | ⟨T', hT', -, hop, ho⟩⟩ := within_changeTable htable hwork h
    · cases he
    obtain rfl : T = T' := Option.some.inj (hT.symm.trans hT')
    obtain ⟨key, hkey, hr⟩ := Table.renews_of_write hn hs hk hop
    exact ⟨_, renews_of_table hT hd ho hkey hr⟩

/-- **Appending** renews the mount, if a file was reported at the path. -/
theorem renews_of_append {st : Status} (hs : m.statusIn site path = .ok (some st))
    (hk : st.kind = .file)
    (h : (m.within fun c => c.append path data).eval site = (.ok (), after)) :
    ∃ spot former, ((m.connection.content path).eval site).1 = .ok former ∧
      m.Renews site after path spot (former ++ data) := by
  rcases m.storage_cases hs with ⟨host, hdisk⟩ | ⟨T, hT⟩
  · rw [statusIn_disk hdisk] at hs
    have hwork := m.connection.append_onDisk hdisk path data
    obtain ⟨ht, ⟨⟨e, he⟩, -⟩ | ⟨d, hop, -, hd⟩⟩ := within_changeDisk hwork h
    · cases he
    obtain ⟨place, former, hp, hcontent, hr⟩ := Disk.renews_of_append hs hk hop
    refine ⟨_, former, ?_, renews_of_disk hdisk hd ht hp hr⟩
    rw [content_disk hdisk]
    exact hcontent
  · rw [statusIn_table hT] at hs
    obtain ⟨name, htable⟩ := storage_of_table? hT
    have hwork := m.connection.append_onTable htable path data
    obtain ⟨hd, ⟨⟨e, he⟩, -⟩ | ⟨T', hT', -, hop, ho⟩⟩ := within_changeTable htable hwork h
    · cases he
    obtain rfl : T = T' := Option.some.inj (hT.symm.trans hT')
    obtain ⟨key, former, hkey, hcontent, hr⟩ := Table.renews_of_append hs hk hop
    refine ⟨_, former, ?_, renews_of_table hT hd ho hkey hr⟩
    rw [content_table hT]
    exact hcontent

/-- Reports are nothing that a mount holds. -/
theorem Renews.of_told {events : List Event}
    (h : m.Renews (site.told events) after path spot content) :
    m.Renews site after path spot content :=
  ⟨h.found, h.still, h.status, h.content, h.ways, h.kept⟩

section Idles

variable {st : Status} (hidle : site.Idles after) (hst : m.statusIn site path = .ok (some st))

include hidle hst

theorem statusIn_of_idles : m.statusIn after path = .ok (some st) := by
  rcases m.storage_cases hst with ⟨host, hs⟩ | ⟨T, hT⟩
  · have hd := hidle.disk_eq hs hst
    rw [statusIn_disk hs] at hst ⊢
    rw [hd, hst]
  · rw [statusIn_table hT] at hst ⊢
    rw [hidle.table, hst]

theorem content_of_idles : ((m.connection.content path).eval after).1 =
    ((m.connection.content path).eval site).1 := by
  rcases m.storage_cases hst with ⟨host, hs⟩ | ⟨T, hT⟩
  · rw [content_disk hs, content_disk hs, hidle.disk_eq hs hst]
  · rw [content_table hT, content_table hT, hidle.table]

theorem spotIn_of_idles : m.spotIn after path = m.spotIn site path := by
  rcases m.storage_cases hst with ⟨host, hs⟩ | ⟨T, hT⟩
  · simp only [spotIn, hs, hidle.disk_eq hs hst]
  · obtain ⟨name, hs⟩ := storage_of_table? hT
    simp only [spotIn, hs]

/-- A mount whose file is renewed later is one whose file is renewed. -/
theorem Renews.of_idles {last : Site} (h : m.Renews after last path spot content) :
    m.Renews site last path spot content where
  found := (spotIn_of_idles hidle hst).symm.trans h.found
  still := h.still
  status := h.status
  content := h.content
  ways other way _ hother := h.ways other way _ (statusIn_of_idles hidle hother)
  kept other hne := (h.kept other hne).trans (hidle.kept other)

end Idles

end Mount

/-! ## Paths that are read back -/

namespace Session

variable {s : Session} {arg : PathArg} {site opened resumed after : Site} {path : Path}
variable {r : Resolution} {spot : Spot} {data : Bytes} {st : Status} {sink : Sink}
variable {stream closed : OutputStream} {chunks : List Bytes} {follow : Bool}

/-- The path leads to a link although links are followed. -/
def EndsAtLink (s : Session) (site : Site) (arg : PathArg) : Prop :=
  ∃ path r status, s.qualified arg = .ok path ∧ s.Resolves site path true r ∧
    r.status = some status ∧ status.kind = .link

/-- What the path leads to is read with the given content, and is reported with its size.  All
spots but the one where it is found keep what they kept. -/
structure Written (s : Session) (arg : PathArg) (data : Bytes) (site after : Site) : Prop where
  read : ((s.openFile arg).eval after).1.map InputStream.data = .ok data
  size : ((s.status arg).eval after).1.map Status.size = .ok data.length
  kept : ∃ path r spot, s.qualified arg = .ok path ∧ s.Resolves site path true r ∧
    r.mount.spotIn site r.path.localText = some spot ∧
    ∀ other, other ≠ spot → after.kept other = site.kept other

/-- Only a root that has been replaced can be a link at which a path ends. -/
theorem EndsAtLink.isRoot (hs : s.standpoint.Proper) (harg : ∀ p, arg.read = .ok p → p.Normal)
    (h : s.EndsAtLink site arg) : ∃ path r, s.qualified arg = .ok path ∧
      s.Resolves site path true r ∧ r.path.isRoot = true := by
  obtain ⟨path, r, status, hq, hr, hst, hk⟩ := h
  have hpath := complete_of_arg hs harg hq
  refine ⟨path, r, hq, hr, ?_⟩
  have hend := hr.ending hpath.normal hpath.absolute
  rcases hend.arrives with ⟨-, -, -, hplain⟩ | ⟨-, hnone, -⟩
  · by_contra hroot
    refine hplain rfl (fun hnil => hroot ?_) status hst hk
    rw [hend.path_eq, hnil]
    rfl
  · cases hnone.symm.trans hst

/-- A file at the end of a path is read with the content that its mount has for it. -/
theorem eval_openFile_data (hq : s.qualified arg = .ok path) (hr : s.Resolves site path true r)
    (hst : r.status = some st) (hk : st.kind ≠ .directory) :
    ((s.openFile arg).eval site).1.map InputStream.data =
      ((r.mount.connection.content r.path.localText).eval site).1 := by
  have htrace : (s.trace site path true).outcome = .ok r := hr
  unfold openFile
  rw [hq, Action.eval_bind, Action.eval_ofExcept]
  dsimp only
  rw [Action.eval_bind, eval_require, htrace]
  dsimp only
  rw [hst]
  dsimp only
  rw [if_neg hk, Action.eval_bind, Mount.eval_within]
  have hcontent : ∀ events, (r.mount.connection.content r.path.localText).eval (site.told events) =
      (((r.mount.connection.content r.path.localText).eval site).1, site.told events) :=
    fun _ => rfl
  rw [hcontent]
  cases ((r.mount.connection.content r.path.localText).eval site).1 <;> rfl

/-- An entry at the end of a path is reported as its mount reports it. -/
theorem eval_status_of_resolves (hq : s.qualified arg = .ok path)
    (hr : s.Resolves site path true r) (hst : r.status = some st) (hk : st.kind ≠ .link) :
    ((s.status arg).eval site).1 = .ok { st with path := r.path } := by
  have htrace : (s.trace site path true).outcome = .ok r := hr
  have hlocated : located st r.path = .ok { st with path := r.path } := by
    unfold located
    split
    · rename_i hlink _
      exact absurd hlink hk
    · rfl
  unfold status
  rw [hq, Action.eval_bind, Action.eval_ofExcept]
  dsimp only
  rw [Action.eval_bind, eval_require, htrace]
  dsimp only
  rw [hst]
  dsimp only
  rw [hlocated]
  rfl

/-- A path leads to what is now at its end, if the directories on the way and the links on it are
still there. -/
theorem Resolves.of_keepsWays (hr : s.Resolves site path follow r) (hpath : path.Complete)
    (hways : (s.atlas site).KeepsWays (s.atlas after))
    (hc : (s.atlas after).Confirmed r.mount r.path.segments.dropLast)
    (hl : (s.atlas after).lstat r.mount r.path.segments = .ok (some st)) (hk : st.kind ≠ .link) :
    s.Resolves after path follow ⟨r.path, r.mount, some st, true⟩ := by
  have hend := hr.ending hpath.normal hpath.absolute
  obtain ⟨less, hless⟩ := hways.trace_outcome (s.targetsNormal site)
    (by simpa using hpath.absolute) (by simpa using hpath.normal.ordinary hpath.absolute) hr
  -- The rest of the way is a single walk, from the old end to what is now there.
  have hleg := Atlas.leg_of_status follow hend.ordinary hc hl hk
    (Atlas.lookup_place hend.owner r.path.segments (Atlas.start s.standpoint path))
  rw [← hend.path_eq] at hleg
  exact hless.trans (congrArg Trace.outcome (Atlas.trace_of_arrived hleg))

/-- A path leads to the file that has been made or given other content at its end. -/
theorem Resolves.of_renews (hr : s.Resolves site path true r) (hpath : path.Complete)
    (hparent : r.parentExists = true)
    (h : r.mount.Renews site after r.path.localText spot data) :
    ∃ st, s.Resolves after path true ⟨r.path, r.mount, some st, true⟩ ∧ st.kind = .file ∧
      st.size = data.length := by
  have hend := hr.ending hpath.normal hpath.absolute
  have hways : (s.atlas site).KeepsWays (s.atlas after) := h.keepsWays s
  obtain ⟨st, hst, hk, hsize⟩ := h.status
  rw [hend.localText_eq] at hst
  have hconfirmed : (s.atlas after).Confirmed r.mount r.path.segments.dropLast :=
    hways.confirmed (fun n hn => hend.ordinary n (List.dropLast_subset _ hn))
      (hend.reported hparent).2
  exact ⟨st, hr.of_keepsWays hpath hways hconfirmed hst (by simp [hk]), hk, hsize⟩

/-- A path at whose end a file has been made or given other content is read back. -/
theorem written_of_renews (hq : s.qualified arg = .ok path) (hr : s.Resolves site path true r)
    (hpath : path.Complete) (hparent : r.parentExists = true)
    (h : r.mount.Renews site after r.path.localText spot data) : s.Written arg data site after := by
  obtain ⟨st, hr', hk, hsize⟩ := hr.of_renews hpath hparent h
  refine ⟨?_, ?_, path, r, spot, hq, hr, h.found, h.kept⟩
  · rw [eval_openFile_data hq hr' rfl (by simp [hk])]
    exact h.content
  · rw [eval_status_of_resolves hq hr' rfl (by simp [hk])]
    exact congrArg Except.ok hsize

/-- Where a path does not end at a link or at a directory, there is a file or nothing. -/
theorem kind_eq_file (hlink : ¬s.EndsAtLink site arg) (hq : s.qualified arg = .ok path)
    (hr : s.Resolves site path true r)
    (hk : ∀ status, r.status = some status → status.kind ≠ .directory) :
    ∀ status, r.status = some status → status.kind = .file := by
  intro status hst
  cases hkind : status.kind with
  | file => rfl
  | directory => exact absurd hkind (hk status hst)
  | link => exact absurd ⟨path, r, status, hq, hr, hst, hkind⟩ hlink

/-- A stream for a new or emptied file renews its mount, and so do the bytes that go to it. -/
theorem written_of_createFile {overwrite : Bool} (hs : s.standpoint.Proper)
    (harg : ∀ p, arg.read = .ok p → p.Normal) (hlink : ¬s.EndsAtLink site arg)
    (hcreate : (s.createFile arg overwrite false).eval site = (.ok (stream, sink), opened))
    (hidle : opened.Idles resumed)
    (hfill : (sink.fill chunks).eval (stream, resumed) = (.ok (), (closed, after))) :
    s.Written arg chunks.flatten site after := by
  obtain ⟨path, r, events, mid, hq, hr, hready, hwrite, rfl, rfl⟩ := createFile_eq_ok hcreate
  have hpath := complete_of_arg hs harg hq
  have hend := hr.ending hpath.normal hpath.absolute
  obtain ⟨rfl, hparent⟩ : mid = site.told events ∧ r.parentExists = true := by
    rcases hready with ⟨-, hprepare⟩ | ⟨⟨status, hst, -⟩, -, rfl⟩
    · rcases prepareParent_cases hprepare with ⟨rfl, hparent⟩ | ⟨-, hf, -⟩
      · exact ⟨rfl, hparent rfl⟩
      · cases hf
    · exact ⟨rfl, (hend.of_status hst).1⟩
  have hstatus : r.mount.statusIn (site.told events) (rootText r.path.segments) = .ok r.status :=
    (hend.reported hparent).1
  have hfile := kind_eq_file hlink hq hr (kind_ne_of_ready hready)
  have hcommit := Sink.eval_fill hfill
  rw [hend.localText_eq] at hwrite
  obtain ⟨spot, hfirst⟩ := Mount.renews_of_write hend.ordinary hstatus hfile hwrite
  obtain ⟨st, hst, hk, -⟩ := hfirst.status
  -- The bytes are written over the empty file that the stream was given out for.
  have hcommit' : (r.mount.within fun c => c.write (rootText r.path.segments) chunks.flatten
      true).eval resumed = (.ok (), after) := by
    rw [← hend.localText_eq]
    exact hcommit
  obtain ⟨spot', hlast⟩ := Mount.renews_of_write hend.ordinary (Mount.statusIn_of_idles hidle hst)
    (fun found hfound => Option.some.inj hfound ▸ hk) hcommit'
  have hrenews := hfirst.of_told.trans (hlast.of_idles hidle hst)
  rw [← hend.localText_eq] at hrenews
  exact written_of_renews hq hr hpath hparent hrenews

/-- A stream that appends changes nothing, and the bytes that go to it renew its mount. -/
theorem written_of_appendFile (hs : s.standpoint.Proper)
    (harg : ∀ p, arg.read = .ok p → p.Normal) (hlink : ¬s.EndsAtLink site arg)
    (happend : (s.appendFile arg).eval site = (.ok (stream, sink), opened))
    (hidle : opened.Idles resumed)
    (hfill : (sink.fill chunks).eval (stream, resumed) = (.ok (), (closed, after))) :
    ∃ former, ((s.openFile arg).eval site).1.map InputStream.data = .ok former ∧
      s.Written arg (former ++ chunks.flatten) site after := by
  obtain ⟨path, r, status, events, hq, hr, hst, hk, rfl, rfl, rfl⟩ := appendFile_eq_ok happend
  have hpath := complete_of_arg hs harg hq
  have hend := hr.ending hpath.normal hpath.absolute
  obtain ⟨hparent, hreported⟩ := hend.of_status hst
  have hsame : site.Idles resumed := hidle
  have hfile : status.kind = .file := by
    refine kind_eq_file hlink hq hr (fun found hfound => ?_) status hst
    obtain rfl : found = status := Option.some.inj (hfound.symm.trans hst)
    exact hk
  have hstatus : r.mount.statusIn site r.path.localText = .ok (some status) := by
    rw [hend.localText_eq]
    exact hreported
  obtain ⟨spot, former, hformer, hrenews⟩ := Mount.renews_of_append
    (Mount.statusIn_of_idles hsame hstatus) hfile (Sink.eval_fill hfill)
  refine ⟨former, ?_, written_of_renews hq hr hpath hparent (hrenews.of_idles hsame hstatus)⟩
  rw [eval_openFile_data hq hr hst hk, ← hformer]
  exact (Mount.content_of_idles hsame hstatus).symm

/-- **What is written is what is read**, if the path does not end at a link: the bytes that go to a
stream, which is filled when any time has passed, are all that a new or emptied file has, and they
come after what was in a file that is appended to. -/
theorem written_of_fill (hs : s.standpoint.Proper) (harg : ∀ p, arg.read = .ok p → p.Normal)
    (hlink : ¬s.EndsAtLink site arg) (hidle : opened.Idles resumed)
    (hfill : (sink.fill chunks).eval (stream, resumed) = (.ok (), (closed, after))) :
    (∀ overwrite, (s.createFile arg overwrite false).eval site = (.ok (stream, sink), opened) →
      s.Written arg chunks.flatten site after) ∧
    ((s.appendFile arg).eval site = (.ok (stream, sink), opened) →
      ∃ former, ((s.openFile arg).eval site).1.map InputStream.data = .ok former ∧
        s.Written arg (former ++ chunks.flatten) site after) :=
  ⟨fun _ hcreate => written_of_createFile hs harg hlink hcreate hidle hfill,
    fun happend => written_of_appendFile hs harg hlink happend hidle hfill⟩

/-- What is left when a stream has been given out, filled and closed, if nothing fails. -/
def filled (give : Work (OutputStream × Sink)) (chunks : List Bytes) (site : Site) : Option Site :=
  match give.eval site with
  | (.ok (stream, sink), opened) =>
    match (sink.fill chunks).eval (stream, opened) with
    | (.ok (), (_, after)) => some after
    | (.error _, _) => none
  | (.error _, _) => none

theorem eval_of_filled {give : Work (OutputStream × Sink)}
    (h : filled give chunks site = some after) : ∃ stream sink opened closed,
      give.eval site = (.ok (stream, sink), opened) ∧
      (sink.fill chunks).eval (stream, opened) = (.ok (), (closed, after)) := by
  unfold filled at h
  rcases hgive : give.eval site with ⟨e | ⟨stream, sink⟩, opened⟩
  · rw [hgive] at h
    cases h
  rw [hgive] at h
  dsimp only at h
  rcases hfill : (sink.fill chunks).eval (stream, opened) with ⟨e | ⟨⟨⟩⟩, closed, last⟩
  · rw [hfill] at h
    cases h
  · rw [hfill] at h
    cases h
    exact ⟨stream, sink, opened, closed, rfl, hfill⟩

/-- The link at `/l` leads to a file with one byte. -/
def hostWithLinkedFile : Site :=
  let s := alone (.ofHost "h")
  let work : Work Unit := do
    s.makeLink (.text "f") (.text "/l") false
    (Mount.ofHost "h").within fun c => c.write "/f" [97] false
  (work.eval (.emptyHost "h")).2

/-- A file behind a link is emptied and filled, or appended to. -/
theorem written_of_fill_behind_link :
    let s := alone (.ofHost "h")
    let site := hostWithLinkedFile
    let arg : PathArg := .text "/l"
    let chunks : List Bytes := [[104], [105]]
    s.standpoint.Proper ∧ (∀ p, arg.read = .ok p → p.Normal) ∧ ¬s.EndsAtLink site arg ∧
      (∃ stream sink opened closed after,
        (s.createFile arg true false).eval site = (.ok (stream, sink), opened) ∧
        opened.Idles opened ∧
        (sink.fill chunks).eval (stream, opened) = (.ok (), (closed, after)) ∧
        s.Written arg [104, 105] site after) ∧
      ∃ stream sink opened closed after former,
        (s.appendFile arg).eval site = (.ok (stream, sink), opened) ∧
        opened.Idles opened ∧
        (sink.fill chunks).eval (stream, opened) = (.ok (), (closed, after)) ∧
        ((s.openFile arg).eval site).1.map InputStream.data = .ok former ∧
        s.Written arg (former ++ [104, 105]) site after := by
  intro s site arg chunks
  have hs : s.standpoint.Proper := Capability.rootPath_complete _
  have harg : ∀ p, arg.read = .ok p → p.Normal := fun p hp =>
    normal_of_read (show Path.read "/l" = .ok p from hp)
  have hends : (s.qualified arg).toOption.map (fun path =>
      (s.trace site path true).outcome.toOption.map fun r => r.status.map Status.kind) =
      some (some (some .file)) := by decide +kernel
  have hlink : ¬s.EndsAtLink site arg := by
    rintro ⟨path, r, status, hq, hr, hst, hk⟩
    have htrace : (s.trace site path true).outcome = .ok r := hr
    rw [hq] at hends
    simp [Except.toOption, htrace, hst, hk] at hends
  have hcreated : (filled (s.createFile arg true false) chunks site).isSome = true := by
    decide +kernel
  have happended : (filled (s.appendFile arg) chunks site).isSome = true := by decide +kernel
  refine ⟨hs, harg, hlink, ?_, ?_⟩
  · obtain ⟨after, hafter⟩ := Option.isSome_iff_exists.mp hcreated
    obtain ⟨stream, sink, opened, closed, hcreate, hfill⟩ := eval_of_filled hafter
    exact ⟨stream, sink, opened, closed, after, hcreate, ⟨rfl, rfl⟩, hfill,
      (written_of_fill hs harg hlink ⟨rfl, rfl⟩ hfill).1 true hcreate⟩
  · obtain ⟨after, hafter⟩ := Option.isSome_iff_exists.mp happended
    obtain ⟨stream, sink, opened, closed, happend, hfill⟩ := eval_of_filled hafter
    obtain ⟨former, hformer, hwritten⟩ :=
      (written_of_fill hs harg hlink ⟨rfl, rfl⟩ hfill).2 happend
    exact ⟨stream, sink, opened, closed, after, former, happend, ⟨rfl, rfl⟩, hfill, hformer,
      hwritten⟩

/-- The directory of the host has been replaced by a link to the directory beside it, and the link
at `/l` leads to the root. -/
def hostRootLinked : Site :=
  let s := alone (.ofHost "h")
  let work : Work Unit := do
    (Mount.ofHost "h").within fun c => c.makeDirectory "../real"
    let _ ← s.delete (.text "/ /") true
    s.makeLink (.text "real") (.text "/ /") false
    s.makeLink (.text "/") (.text "/l") false
  (work.eval (.emptyHost "h")).2

/-- The root becomes a file, and what led to it is gone. -/
theorem not_written_root_linked :
    let s := alone (.ofHost "h")
    let site := hostRootLinked
    let arg : PathArg := .text "/l"
    let chunks : List Bytes := [[104, 105]]
    ∃ stream sink opened closed after,
      (s.createFile arg true false).eval site = (.ok (stream, sink), opened) ∧
      (sink.fill chunks).eval (stream, opened) = (.ok (), (closed, after)) ∧
      ¬s.Written arg chunks.flatten site after := by
  intro s site arg chunks
  have hlost : (filled (s.createFile arg true false) chunks site).map
      (fun after => ((s.openFile arg).eval after).1.toOption.isSome) = some false := by
    decide +kernel
  obtain ⟨after, hafter, hnone⟩ := Option.map_eq_some_iff.mp hlost
  obtain ⟨stream, sink, opened, closed, hcreate, hfill⟩ := eval_of_filled hafter
  refine ⟨stream, sink, opened, closed, after, hcreate, hfill, fun hwritten => ?_⟩
  obtain ⟨input, hopen, -⟩ := map_eq_ok.mp hwritten.read
  rw [hopen] at hnone
  cases hnone

end Session

end MountSpace
