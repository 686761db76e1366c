import MountSpace.Proofs.Resolve.Names
import MountSpace.Proofs.Session.Homes
import MountSpace.Proofs.Session.TreeRequests
import MountSpace.Proofs.Store.Exact
import MountSpace.Proofs.Store.Texts

/-!
# Requests that name tidy paths

When clients keep to names of one kind, in the paths they ask for and in the links they make, then
every path is resolved to one with such names.  A table that is given such paths only, none of them
with a blank at the end of a name, keeps the columns of its rows in agreement.

## Main definitions

* `Site.LinksAmong` — the links that mounts keep lead to such names.
* `Site.Tidy` — and the columns of a table agree.
* `Request.Among` — a request that keeps to such names.

Main statements: `Request.among_of_says`, `Session.Resolves.among`, `Session.tidy_after`.
-/

namespace MountSpace

open MountSpace.Path

/-- The links in the mounted stores lead to paths whose names have the property. -/
structure Site.LinksAmong (P : String → Prop) (reg : Registry) (site : Site) : Prop where
  disk : ∀ m ∈ reg.mounts, ∀ host, m.backend.storage = .disk host →
    (site.disk host).Texts (Says P)
  table : ∀ m ∈ reg.mounts, ∀ name, m.table? = some name → (site.table name).Texts (Says P)

/-- The links in the mounted stores lead to such paths, and the columns of the table agree. -/
structure Site.Tidy (P : String → Prop) (reg : Registry) (T : TableName) (site : Site) : Prop
    extends site.LinksAmong P reg where
  exact : (site.table T).Exact

/-- The target of the link that a request is to make. -/
def Request.target? : Request → Option String
  | .makeLink target _ _ => some target
  | _ => none

/-- All texts of a request that are read as paths. -/
def Request.texts (q : Request) : List String := q.paths ++ q.target?.toList

/-- The names in the paths of a request have the property, and so have those in the target of a new
link, as any of the mounts would store it. -/
structure Request.Among (P : String → Prop) (reg : Registry) (q : Request) : Prop where
  paths : ∀ raw ∈ q.paths, Says P raw
  target : ∀ raw, q.target? = some raw → ∀ t, Path.read raw = .ok t → ∀ m ∈ reg.mounts,
    Says P (m.capability.attach t).text

variable {P Q : String → Prop} {reg : Registry} {T : TableName} {site after : Site} {m : Mount}
variable {names : List String}

theorem Request.Among.mono {q : Request} (h : q.Among P reg) (hPQ : ∀ n, P n → Q n) :
    q.Among Q reg where
  paths raw hraw := (h.paths raw hraw).mono hPQ
  target raw hraw t ht m hm := (h.target raw hraw t ht m hm).mono hPQ

/-- If mounts have addresses as they can be read, and names have no blanks around them, then the
target of a new link says the same names as it is given and as it is stored. -/
theorem Request.among_of_says (hP : ∀ n, P n → ¬StartsBlank n ∧ ¬EndsBlank n)
    (hreg : ∀ m ∈ reg.mounts, m.capability.location.Plain) {q : Request}
    (h : ∀ raw ∈ q.texts, Says P raw) : q.Among P reg where
  paths raw hraw := h raw (List.mem_append_left _ hraw)
  target raw hraw t ht m hm := by
    have hparse := mapError_eq_ok.mp ht
    refine says_text hP (m.capability.attach_normal (normal_of_parse hparse)) ?_ ?_
    · unfold Capability.attach
      split
      · exact hreg m hm
      · exact plain_of_parse hparse
    · unfold Path.Among
      rw [m.capability.attach_segments]
      exact h raw (List.mem_append_right _ (by simp [hraw])) t ht

/-! ## Work on a mount -/

namespace Site.Tidy

variable (h : site.Tidy P reg T)

include h

theorem told (events : List Event) : (site.told events).Tidy P reg T :=
  ⟨⟨h.disk, h.table⟩, h.exact⟩

/-- Work is tidy that keeps the texts of links and, in the table, the agreement of the columns. -/
theorem of_work {α : Type} {w : Work α} {res : Except Error α} {f : TableName → Prop}
    (hw : w.eval site = (res, after)) (hdisk : w.Keeps (Disk.Texts (Says P)))
    (htable : ∀ name, after.table name = site.table name ∨ m.table? = some name ∧ f name)
    (htexts : ∀ name, f name → (site.table name).Texts (Says P) →
      (after.table name).Texts (Says P))
    (hexact : m.table? = some T → f T → (after.table T).Exact) : after.Tidy P reg T where
  disk m hm host hs := by
    have hkept := hdisk site host (h.disk m hm host hs)
    rwa [hw] at hkept
  table m hm name hT := by
    rcases htable name with hsame | ⟨-, hop⟩
    · rw [hsame]
      exact h.table m hm name hT
    · exact htexts name hop (h.table m hm name hT)
  exact := by
    rcases htable T with hsame | ⟨hT, hop⟩
    · rw [hsame]
      exact h.exact
    · exact hexact hT hop

theorem write (hp : Table.Plain names) (hne : m.table? = some T → names ≠ []) {data : Bytes}
    {overwrite : Bool} {res : Except Error Unit}
    (hw : (m.within fun c => c.write (rootText names) data overwrite).eval site = (res, after)) :
    after.Tidy P reg T :=
  h.of_work hw (Mount.keeps_within <| Connection.keeps_write fun _ _ hd =>
      hd.of_amended (Disk.amended_write ..))
    (Mount.table_write hw) (fun _ hop ht => ht.write hop)
    fun hT hop => h.exact.write hp (hne hT) hop

theorem append {path : String} {data : Bytes} {res : Except Error Unit}
    (hw : (m.within fun c => c.append path data).eval site = (res, after)) :
    after.Tidy P reg T :=
  h.of_work hw (Mount.keeps_within <| Connection.keeps_append fun _ _ _ hd hop =>
      hd.of_amended (Disk.amended_append hop))
    (Mount.table_append hw) (fun _ hop ht => ht.append hop) fun _ hop => h.exact.append hop

theorem makeLink (hp : Table.Plain names) (hne : m.table? = some T → names ≠ []) {text : String}
    (htext : Says P text) {res : Except Error Unit}
    (hw : (m.within fun c => c.makeLink (rootText names) text).eval site = (res, after)) :
    after.Tidy P reg T :=
  h.of_work hw (Mount.keeps_within <| Connection.keeps_makeLink fun _ _ _ hd hop =>
      hd.of_amended (Disk.amended_makeLink htext hop))
    (Mount.table_makeLink hw) (fun _ hop ht => ht.makeLink htext hop)
    fun hT hop => h.exact.makeLink hp (hne hT) hop

theorem connection_makeDirectory (hp : Table.Plain names) (hne : names ≠ [])
    {res : Except Error Unit}
    (hw : (m.connection.makeDirectory (rootText names)).eval site = (res, after)) :
    after.Tidy P reg T :=
  h.of_work hw (Connection.keeps_makeDirectory fun _ _ _ hd hop =>
      hd.of_amended (Disk.amended_makeDirectory hop))
    (Mount.table_connection_makeDirectory hw) (fun _ hop ht => ht.makeDirectory hop)
    fun _ hop => h.exact.makeDirectory hp hne hop

theorem makeDirectory (hp : Table.Plain names) (hne : m.table? = some T → names ≠ [])
    {res : Except Error Unit}
    (hw : (m.within fun c => c.makeDirectory (rootText names)).eval site = (res, after)) :
    after.Tidy P reg T :=
  h.of_work hw (Mount.keeps_within <| Connection.keeps_makeDirectory fun _ _ _ hd hop =>
      hd.of_amended (Disk.amended_makeDirectory hop))
    (Mount.table_makeDirectory hw) (fun _ hop ht => ht.makeDirectory hop)
    fun hT hop => h.exact.makeDirectory hp (hne hT) hop

theorem setTimes {path : String} {accessed modified : Option Moment} {res : Except Error Unit}
    (hw : (m.within fun c => c.setTimes path accessed modified).eval site = (res, after)) :
    after.Tidy P reg T :=
  h.of_work hw (Mount.keeps_within <| Connection.keeps_setTimes fun _ _ hd hop =>
      hd.of_amended (Disk.amended_setTimes hop))
    (Mount.table_setTimes hw) (fun _ hop ht => ht.setTimes hop) fun _ hop => h.exact.setTimes hop

theorem delete {path : String} {recursive : Bool} {res : Except Error Bool}
    (hw : (m.within fun c => c.delete path recursive).eval site = (res, after)) :
    after.Tidy P reg T :=
  h.of_work hw (Mount.keeps_within <| Connection.keeps_delete
      (fun _ _ _ _ hd => hd.of_edited (Disk.edited_delete ..)) recursive)
    (Mount.table_delete hw) (fun _ ⟨_, hop⟩ ht => ht.delete hop)
    fun _ ⟨_, hop⟩ => h.exact.delete hop

theorem move {src dest : List String} (hsrc : Table.Plain src) (hdest : Table.Plain dest)
    (hne : m.table? = some T → dest ≠ []) {overwrite : Bool} {res : Except Error Unit}
    (hw : (m.within fun c => c.move (rootText src) (rootText dest) overwrite).eval site =
      (res, after)) : after.Tidy P reg T :=
  h.of_work hw (Mount.keeps_within <| Connection.keeps_move
      (fun _ _ _ _ _ hd => hd.of_edited (Disk.edited_move ..)) _ overwrite)
    (Mount.table_move hw) (fun _ hop ht => ht.move hop)
    fun hT hop => h.exact.move hsrc hdest (hne hT) hop

end Site.Tidy

/-! ## The ends of paths -/

namespace Session

variable {s : Session} {path : Path} {follow : Bool} {r : Resolution}

theorem targetsAmong (s : Session) (h : site.LinksAmong P s.registry) :
    (s.atlas site).TargetsAmong P := by
  intro m hm text status target hs ht
  have hstatus : m.connection.statusIn site text = .ok (some status) := hs
  unfold Connection.statusIn at hstatus
  split at hstatus
  · rename_i host hstorage
    obtain ⟨text, hgiven, hread⟩ := (h.disk m hm host hstorage).of_status hstatus ht
    exact hgiven target hread
  · rename_i name hstorage
    obtain ⟨T', hT', hstatus⟩ := bind_eq_ok.mp hstatus
    obtain ⟨text, hgiven, hread⟩ :=
      (h.table m hm T' (Mount.table?_eq hstorage hT')).of_status hstatus ht
    exact hgiven target hread

theorem among_of_qualified (hat : s.standpoint.workingDirectory.Among P) {raw : String}
    (hraw : Says P raw) (h : s.qualified (.text raw) = .ok path) : path.Among P := by
  obtain ⟨p, hread, rfl⟩ := map_eq_ok.mp h
  exact Path.Among.complete hat (hraw p hread)

/-- **Paths with tidy names end at paths with tidy names**, through whatever links they lead. -/
theorem Resolves.among (hr : s.Resolves site path follow r) (hp : path.Complete)
    (hamong : path.Among P) (h : site.Tidy P s.registry T) : r.path.Among P :=
  Atlas.among_of_resolve (s.targetsNormal site) (s.targetsAmong h.toLinksAmong) hp.normal
    hp.absolute hamong hr

/-- The end of a path in a table is below the root if no directory is there. -/
theorem Ending.ne_nil_of_table (h : s.Ending site follow r) (hT : r.mount.table? = some T)
    (hfile : ∀ status, r.status = some status → status.kind ≠ .directory) :
    r.path.segments ≠ [] := by
  intro hnil
  rcases h.arrives with ⟨-, hl, -⟩ | ⟨-, -, front, name, hway, -⟩
  · rw [hnil, lstat_table hT] at hl
    have hroot := Except.ok.inj (hl.symm.trans (Table.status_root _))
    exact hfile _ hroot rfl
  · rw [hnil] at hway
    exact absurd (List.prefix_nil.mp hway.1) (by simp)

/-- A table in which a path ends at an entry has an entry at its root. -/
theorem Ending.exists_top (h : s.Ending site follow r) (hT : r.mount.table? = some T)
    (hexact : (site.table T).Exact) (hp : Table.Plain r.path.segments)
    (hne : r.path.segments ≠ []) {status : Status} (hs : r.status = some status) :
    ∃ row ∈ (site.table T).rows, row.parent = "/" := by
  obtain ⟨first, rest, hsplit⟩ := List.exists_cons_of_ne_nil hne
  obtain ⟨found, hfound⟩ :
      ∃ found, (site.table T).status (rootText [first]) = .ok (some found) := by
    rw [← lstat_table hT s site]
    rcases h.arrives with ⟨-, hl, hc, -⟩ | ⟨-, hnone, -⟩
    · cases rest with
      | nil => exact ⟨status, by rw [← hsplit, hl, hs]⟩
      | cons second rest =>
        obtain ⟨found, hfound, -⟩ := hc [first] (by simp [hsplit]) (by simp)
        exact ⟨found, hfound⟩
    · rw [hs] at hnone
      cases hnone
  have hplain : Table.Plain [first] := hp.of_prefix (by simp [hsplit])
  obtain ⟨row, hrow, hpath, -⟩ := Table.row_of_status hplain (by simp) hfound
  obtain ⟨p, hat⟩ := (hexact.row row hrow).address
  have hnames : p.segments = [first] :=
    rootText_inj hat.plain.ordinary hplain.ordinary (hat.path_eq_rootText.symm.trans hpath)
  exact ⟨row, hrow, by rw [hat.parent_eq_rootText, hnames]; rfl⟩

/-- What is known of the end of a tidy path. -/
structure Tidies (s : Session) (site : Site) (P : String → Prop) (follow : Bool) (r : Resolution) :
    Prop where
  ending : s.Ending site follow r
  among : r.path.Among P

theorem Resolves.tidies (hs : s.standpoint.Proper) (hat : s.standpoint.workingDirectory.Among P)
    {raw : String} (hraw : Says P raw) (hq : s.qualified (.text raw) = .ok path)
    (hr : s.Resolves site path follow r) (h : site.Tidy P s.registry T) :
    s.Tidies site P follow r := by
  have hcomplete := complete_of_qualified hs hq
  exact ⟨hr.ending hcomplete.normal hcomplete.absolute,
    hr.among hcomplete (among_of_qualified hat hraw hq) h⟩

/-! ## Requests -/

theorem tidy_delete (h : site.Tidy P reg T) {raw : String} {recursive : Bool}
    {res : Except Error Bool}
    (hrun : (s.delete (.text raw) recursive).eval site = (res, after)) :
    after.Tidy P reg T := by
  rcases delete_cases hrun with ⟨events, rfl⟩ | ⟨_, r, _, events, -, -, -, -, hd⟩
  · exact h.told events
  · exact (h.told events).delete hd

theorem tidy_setTimes (h : site.Tidy P reg T) {raw : String} {accessed modified : Option Moment}
    {res : Except Error Unit}
    (hrun : (s.setTimes (.text raw) accessed modified).eval site = (res, after)) :
    after.Tidy P reg T := by
  rcases setTimes_cases hrun with ⟨events, rfl⟩ | ⟨_, r, events, -, -, hset⟩
  · exact h.told events
  · exact (h.told events).setTimes hset

variable (hP : ∀ n, P n → ¬EndsBlank n)

include hP

theorem Tidies.plain (h : s.Tidies site P follow r) : Table.Plain r.path.segments :=
  fun n hn => ⟨h.ending.ordinary n hn, hP n (h.among n hn)⟩

theorem Tidies.tidy_prepareParent (h : s.Tidies site P follow r) {start : Site}
    (hstart : start.Tidy P reg T) {asked : Path} {createParent : Bool} {res : Except Error Unit}
    (hp : (prepareParent r asked createParent).eval start = (res, after)) :
    after.Tidy P reg T := by
  refine h.ending.prepareParent_keeps (P := fun site => site.Tidy P reg T) ?_ ?_ hstart hp
  · intro site after res names hf hne ht hm
    exact ht.connection_makeDirectory
      (Table.Plain.of_prefix (h.plain hP) (hf.trans (List.dropLast_prefix _))) hne hm
  · intro before after hb ha
    exact ⟨⟨ha.disk, hb.table⟩, hb.exact⟩

variable {raw : String} (hs : s.standpoint.Proper)
  (hat : s.standpoint.workingDirectory.Among P) (h : site.Tidy P s.registry T)

include hs hat h

theorem tidy_createFile (hraw : Says P raw) {overwrite createParent : Bool}
    {res : Except Error (OutputStream × Sink)}
    (hrun : (s.createFile (.text raw) overwrite createParent).eval site = (res, after)) :
    after.Tidy P s.registry T := by
  rcases createFile_cases hrun with ⟨e, events, -, rfl⟩ | ⟨path, r, events, ready, mid, hq, hr,
    hready, hlast⟩
  · exact h.told events
  have hend := hr.tidies hs hat hraw hq h
  have hmid : mid.Tidy P s.registry T := by
    rcases hready with ⟨-, hp⟩ | ⟨-, -, -, rfl⟩
    · exact hend.tidy_prepareParent hP (h.told events) hp
    · exact h.told events
  rcases hlast with ⟨e, -, -, rfl⟩ | ⟨-, done, hw, -⟩
  · exact hmid
  · rw [hend.ending.localText_eq] at hw
    refine hmid.write (hend.plain hP) (fun hT => ?_) hw
    exact hend.ending.ne_nil_of_table hT (kind_ne_of_ready hready)

theorem tidy_makeLink {target : String} {createParent : Bool} {res : Except Error Unit}
    (hq : (Request.makeLink target raw createParent).Among P s.registry)
    (hrun : (s.makeLink (.text target) (.text raw) createParent).eval site = (res, after)) :
    after.Tidy P s.registry T := by
  rcases makeLink_cases hrun with ⟨e, events, -, rfl⟩ | ⟨path, r, events, ready, mid, hpath, hr,
    hnone, hp, hlast⟩
  · exact h.told events
  have hend := hr.tidies hs hat (hq.paths raw (by simp [Request.paths])) hpath h
  have hmid := hend.tidy_prepareParent hP (h.told events) hp
  rcases hlast with ⟨e, -, -, rfl⟩ | ⟨-, t, done, made, more, ht, hl, -, rfl⟩
  · exact hmid
  · rw [hend.ending.localText_eq] at hl
    refine (hmid.makeLink (hend.plain hP)
      (fun hT => hend.ending.ne_nil_of_table hT ?_) ?_ hl).told _
    · simp [hnone]
    · exact hq.target target rfl t ht r.mount (Registry.mem_of_lookup hend.ending.owner)

theorem tidy_makeDirectory (hraw : Says P raw) {createParent : Bool} {res : Except Error Unit}
    (hrun : (s.makeDirectory (.text raw) createParent).eval site = (res, after)) :
    after.Tidy P s.registry T := by
  rcases makeDirectory_cases hrun with ⟨events, rfl, -⟩ | ⟨path, r, events, ready, mid, hq, hr,
    hnone, hp, hlast⟩
  · exact h.told events
  have hend := hr.tidies hs hat hraw hq h
  have hmid := hend.tidy_prepareParent hP (h.told events) hp
  rcases hlast with ⟨e, -, -, rfl⟩ | ⟨-, hm⟩
  · exact hmid
  · rw [hend.ending.localText_eq] at hm
    refine hmid.makeDirectory (hend.plain hP) (fun hT => hend.ending.ne_nil_of_table hT ?_) hm
    simp [hnone]

theorem tidy_move {src dst : String} (hsrc : Says P src) (hdst : Says P dst) {overwrite : Bool}
    {res : Except Error Unit}
    (hrun : (s.move (.text src) (.text dst) overwrite).eval site = (res, after)) :
    after.Tidy P s.registry T := by
  rcases move_cases hrun with ⟨events, rfl, -⟩ | ⟨srcPath, dstPath, source, dest, status, events,
    hq, hq', hr, hr', hstatus, hlocation, hroot, -, -, hold, hmove⟩
  · exact h.told events
  have hfrom := hr.tidies hs hat hsrc hq h
  have hto := hr'.tidies hs hat hdst hq' h
  have hmount : source.mount = dest.mount := hfrom.ending.mount_eq hto.ending hlocation
  rw [hfrom.ending.localText_eq, hto.ending.localText_eq] at hmove
  refine (h.told events).move (hfrom.plain hP) (hto.plain hP) (fun hT hnil => ?_) hmove
  -- The root is no destination, since it lists what leads to the source.
  have hT' : dest.mount.table? = some T := hmount ▸ hT
  have hsettled : settle dest.path.segments = [] := by rw [hnil, settle_nil]
  have hne : source.path.segments ≠ [] := by
    intro hnil'
    rw [hfrom.ending.path_eq, hnil'] at hroot
    cases hroot
  obtain ⟨row, hrow, hparent⟩ :=
    hfrom.ending.exists_top hT h.exact (hfrom.plain hP) hne hstatus
  exact hto.ending.parent_ne_of_settle_nil hT' hold hsettled row hrow hparent

/-- **A request that keeps to tidy names leaves everything tidy.** -/
theorem tidy_after {q : Request} (hq : q.Among P s.registry) {res : Except Error Answer}
    (hrun : (q.work s).eval site = (res, after)) : after.Tidy P s.registry T := by
  by_cases hreads : q.Reads
  · obtain ⟨events, rfl⟩ := (hreads.quiet s).eval_eq hrun
    exact h.told events
  cases q with
  | makeLink target link createParent =>
    obtain ⟨done, hrun, -⟩ := Action.eval_return_cases hrun
    exact tidy_makeLink hP hs hat h hq hrun
  | createFile path overwrite createParent =>
    obtain ⟨done, hrun, -⟩ := Action.eval_return_cases hrun
    exact tidy_createFile hP hs hat h (hq.paths path (by simp [Request.paths])) hrun
  | makeDirectory path createParent =>
    obtain ⟨done, hrun, -⟩ := Action.eval_return_cases hrun
    exact tidy_makeDirectory hP hs hat h (hq.paths path (by simp [Request.paths])) hrun
  | delete path recursive =>
    obtain ⟨done, hrun, -⟩ := Action.eval_return_cases hrun
    exact tidy_delete h hrun
  | move src dst overwrite =>
    obtain ⟨done, hrun, -⟩ := Action.eval_return_cases hrun
    exact tidy_move hP hs hat h (hq.paths src (by simp [Request.paths]))
      (hq.paths dst (by simp [Request.paths])) hrun
  | setTimes path accessed modified =>
    obtain ⟨done, hrun, -⟩ := Action.eval_return_cases hrun
    exact tidy_setTimes h hrun
  | _ => exact absurd trivial hreads

end Session

end MountSpace
