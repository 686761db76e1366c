import MountSpace.Proofs.Session.Stores
import MountSpace.Proofs.Store.CatalogueTable

/-!
# Mounts that keep a catalogue

A mount keeps a catalogue on its disk or in its table.  What it reports is what the catalogue says,
and what there is room for in the catalogue it does, whichever of the two it has.

## Main definitions

* `Mount.Shows` — the store of the mount keeps the catalogue.
* `Mount.Yields` — work that succeeds and leaves a catalogue behind.

Main statements: `Mount.Shows.statusIn`, `Mount.Shows.list`, `Mount.Shows.write`,
`Mount.Shows.delete`, `Mount.Shows.move`.
-/

namespace MountSpace

open MountSpace.Path

variable {α : Type} {m : Mount} {site : Site} {c c' : Catalogue} {names S D : List String}
variable {node : Node} {content data : Bytes} {text : String} {a : α}

/-- The store of the mount keeps the catalogue. -/
inductive Mount.Shows (m : Mount) (site : Site) (c : Catalogue) : Prop
  | disk {host : String} (hs : m.backend.storage = .disk host) (h : (site.disk host).Shows c)
  | table {T : TableName} (hT : m.table? = some T) (h : (site.table T).Shows c)

/-- The work succeeds, and the store then keeps the catalogue. -/
def Mount.Yields (m : Mount) (site : Site) (work : Work α) (a : α) (c : Catalogue) : Prop :=
  ∃ after, work.eval site = (.ok a, after) ∧ m.Shows after c

namespace Mount

/-! ## Work on one store -/

theorem Yields.bind {β : Type} {w : Work α} {f : α → Work β} {b : β}
    (h : m.Yields site w a c) (hf : ∀ after, m.Shows after c → m.Yields after (f a) b c') :
    m.Yields site (w >>= f) b c' := by
  obtain ⟨after, heval, hshows⟩ := h
  obtain ⟨last, hlast, hshows'⟩ := hf after hshows
  exact ⟨last, by rw [Action.eval_bind, heval]; exact hlast, hshows'⟩

section Work

variable {host : String} {T : TableName} {work : Work α}

theorem yields_onDisk (hs : m.backend.storage = .disk host)
    {f : Instant → Disk → Except Error α × Disk} (hwork : work = Work.onDisk host f)
    (hf : ∃ d, f site.now (site.disk host) = (.ok a, d) ∧ d.Shows c) :
    m.Yields site work a c := by
  obtain ⟨d, hd, hshows⟩ := hf
  refine ⟨site.setDisk host d, ?_, .disk hs ?_⟩
  · rw [hwork, Work.onDisk, Action.eval_ofFun, hd]
  · rwa [Site.disk_setDisk, if_pos rfl]

theorem yields_changeDisk (hs : m.backend.storage = .disk host) {work : Work Unit}
    {f : Instant → Disk → Except Error Disk} (hwork : work = Connection.changeDisk host f)
    (hf : ∃ d, f site.now (site.disk host) = .ok d ∧ d.Shows c) :
    m.Yields site work () c := by
  obtain ⟨d, hd, hshows⟩ := hf
  exact yields_onDisk hs hwork ⟨d, by simp only [hd], hshows⟩

theorem yields_withTable (hT : m.table? = some T)
    {f : Instant → Table → Except Error (α × Table)}
    (hwork : ∀ name, m.backend.storage = .table name → work = m.connection.withTable name f)
    (hf : ∃ t, f site.now (site.table T) = .ok (a, t) ∧ t.Shows c) :
    m.Yields site work a c := by
  obtain ⟨t, ht, hshows⟩ := hf
  refine ⟨site.setTable T t, ?_, .table hT ?_⟩
  · unfold table? at hT
    split at hT
    · rename_i hs hd
      cases hT
      rw [hwork _ hs]
      simp only [connection, Connection.withTable, Connection.tableIn, hd]
      rw [Action.eval_bind, Action.eval_ofExcept]
      dsimp only
      rw [Work.onTable, Action.eval_ofFun, ht]
    · cases hT
  · rwa [Site.table_setTable, if_pos rfl]

theorem yields_changeTable (hT : m.table? = some T) {work : Work Unit}
    {f : Instant → Table → Except Error Table}
    (hwork : ∀ name, m.backend.storage = .table name → work = m.connection.changeTable name f)
    (hf : ∃ t, f site.now (site.table T) = .ok t ∧ t.Shows c) : m.Yields site work () c := by
  obtain ⟨t, ht, hshows⟩ := hf
  exact yields_withTable hT hwork ⟨t, by rw [ht]; rfl, hshows⟩

/-- Work that succeeds is done within a session as it is without one. -/
theorem Yields.within {work : Connection → Work α} (h : m.Yields site (work m.connection) a c) :
    m.Yields site (m.within work) a c := by
  obtain ⟨after, heval, hshows⟩ := h
  exact ⟨after, by rw [eval_within, heval], hshows⟩

end Work

/-- Work that leaves the site as it is does so within a session, whether or not it fails. -/
theorem eval_within_of_same {work : Connection → Work α} {r : Except Error α}
    (h : (work m.connection).eval site = (r, site)) : (m.within work).eval site = (r, site) := by
  rw [eval_within, h]
  cases r with
  | ok a => rfl
  | error e =>
    dsimp only
    split <;> rfl

/-- It makes no difference whether a result is made into another within a session or after it. -/
theorem eval_within_map {β : Type} (f : α → β) (work : Connection → Work α) (site : Site) :
    (m.within fun k => f <$> work k).eval site = (f <$> m.within work).eval site := by
  rw [eval_within, Action.eval_map, Action.eval_map, eval_within]
  rcases (work m.connection).eval site with ⟨e | a, after⟩ <;> rfl

namespace Shows

variable (h : m.Shows site c)

include h

theorem told (events : List Event) : m.Shows (site.told events) c := by
  cases h with
  | disk hs h => exact .disk hs h
  | table hT h => exact .table hT h

theorem disk_shows {host : String} (hs : m.backend.storage = .disk host) :
    (site.disk host).Shows c := by
  cases h with
  | disk hs' h =>
    cases hs.symm.trans hs'
    exact h
  | table hT h =>
    obtain ⟨name, hs'⟩ := storage_of_table? hT
    cases hs.symm.trans hs'

theorem table_shows {T : TableName} (hT : m.table? = some T) : (site.table T).Shows c := by
  cases h with
  | disk hs h =>
    obtain ⟨name, hs'⟩ := storage_of_table? hT
    cases hs.symm.trans hs'
  | table hT' h =>
    cases hT.symm.trans hT'
    exact h

/-! ## Looking -/

/-- **A mount reports what the catalogue says**, times aside. -/
theorem statusIn (hn : Neat names) (hdir : c.node? names.dropLast = some .directory) :
    Option.map Status.untimed <$> m.statusIn site (rootText names) = c.status names := by
  cases h with
  | disk hs h =>
    rw [statusIn_disk hs]
    exact h.status hn hdir
  | table hT h =>
    rw [statusIn_table hT]
    exact h.status hn

theorem exists_status (hn : Neat names) (hdir : c.node? names.dropLast = some .directory)
    {found : Option Status} (hfound : c.status names = .ok found) :
    ∃ timed, (m.connection.status (rootText names)).eval site = (.ok timed, site) ∧
      timed.map Status.untimed = found := by
  have hstatus := h.statusIn hn hdir
  rw [hfound] at hstatus
  obtain ⟨timed, htimed, hsame⟩ := map_eq_ok.mp hstatus
  exact ⟨timed, congrArg (·, site) htimed, hsame⟩

theorem content_eq (hs : Storable names) (hnode : c.node? names = some (.file content)) :
    (m.within fun k => k.content (rootText names)).eval site = (.ok content, site) := by
  refine eval_within_of_same (congrArg (·, site) ?_)
  cases h with
  | disk hstorage h =>
    simp only [connection, hstorage]
    exact h.content_eq hs hnode
  | table hT h =>
    unfold table? at hT
    split at hT
    · rename_i hstorage hd
      cases hT
      simp only [connection, hstorage, Connection.tableIn, hd]
      exact h.content_eq hs hnode
    · cases hT

/-- **A mount lists what the catalogue says.** -/
theorem list (hs : Storable names) (hdir : c.node? names = some .directory) :
    ∃ r, (m.connection.list (rootText names)).eval site = (r, site) ∧ c.Lists names r := by
  cases h with
  | disk hstorage h => exact ⟨_, list_disk hstorage site _, h.list hs hdir⟩
  | table hT h => exact ⟨_, list_table hT site _, h.list hs hdir⟩

/-! ## Writing -/

/-- **A file is written** where there is room for it, but not in the place of a link. -/
theorem write (hroom : c.Room names (.file data)) {overwrite : Bool}
    (hold : c.node? names = none ∨
      overwrite = true ∧ ∃ content, c.node? names = some (.file content)) :
    m.Yields site (m.connection.write (rootText names) data overwrite) ()
      (.put names (.file data) hroom) := by
  cases h with
  | disk hs h =>
    exact yields_onDisk (f := fun now d => d.write now (rootText names) data overwrite) hs
      (m.connection.write_onDisk hs _ _ _)
      (h.write hroom (hold.symm.imp_left And.left) site.now)
  | table hT h =>
    exact yields_changeTable (f := fun now t => t.write now (rootText names) data overwrite) hT
      (fun _ hs => m.connection.write_onTable hs _ _ _)
      (h.write hroom hold site.now)

/-- Bytes are appended to a file. -/
theorem append (hs : Storable names) (hnode : c.node? names = some (.file content))
    (hroom : c.Room names (.file (content ++ data))) :
    m.Yields site (m.connection.append (rootText names) data) ()
      (.put names (.file (content ++ data)) hroom) := by
  cases h with
  | disk hstorage h =>
    exact yields_changeDisk (f := fun now d => d.append now (rootText names) data) hstorage
      (m.connection.append_onDisk hstorage _ _)
      (h.append hs hnode hroom site.now)
  | table hT h =>
    exact yields_changeTable (f := fun now t => t.append now (rootText names) data) hT
      (fun _ hs => m.connection.append_onTable hs _ _)
      (h.append hnode hroom site.now)

/-- **A directory is made** where there is room for it. -/
theorem makeDirectory (hroom : c.Room names .directory) (hnone : c.node? names = none) :
    m.Yields site (m.connection.makeDirectory (rootText names)) ()
      (.put names .directory hroom) := by
  cases h with
  | disk hs h =>
    exact yields_changeDisk (f := fun now d => d.makeDirectory now (rootText names)) hs
      (m.connection.makeDirectory_onDisk hs _)
      (h.makeDirectory hroom hnone site.now)
  | table hT h =>
    exact yields_changeTable (f := fun now t => t.makeDirectory now (rootText names)) hT
      (fun _ hs => m.connection.makeDirectory_onTable hs _)
      (h.makeDirectory hroom hnone site.now)

/-- **A link is made** where there is room for it. -/
theorem makeLink (hroom : c.Room names (.link text)) (hnone : c.node? names = none)
    (hzero : ∀ char ∈ text.toList, char.toNat ≠ 0) :
    m.Yields site (m.connection.makeLink (rootText names) text) ()
      (.put names (.link text) hroom) := by
  cases h with
  | disk hs h =>
    exact yields_changeDisk (f := fun now d => d.makeLink now (rootText names) text) hs
      (m.connection.makeLink_onDisk hs _ _)
      (h.makeLink hroom hnone hzero site.now)
  | table hT h =>
    exact yields_changeTable (f := fun now t => t.makeLink now (rootText names) text) hT
      (fun _ hs => m.connection.makeLink_onTable hs _ _)
      (h.makeLink hroom hnone site.now)

/-! ## Taking away and moving -/

/-- **An entry is deleted** that is there, unless it is a directory that holds something and all
is not to be taken along. -/
theorem delete (hs : Storable names) (hne : names ≠ []) (hnode : c.node? names = some node)
    {recursive : Bool}
    (hempty : node = .directory → recursive = true ∨ ∀ name, c.node? (names ++ [name]) = none) :
    m.Yields site (m.connection.delete (rootText names) recursive) true (c.prune names hne) := by
  cases h with
  | disk hstorage h =>
    exact yields_onDisk (f := fun now d => d.delete now (rootText names) recursive) hstorage
      (m.connection.delete_onDisk hstorage _ _)
      (h.delete hs hne hnode hempty site.now)
  | table hT h =>
    exact yields_withTable (f := fun _ t => t.delete (rootText names) recursive) hT
      (fun _ hs => m.connection.delete_onTable hs _ _)
      (h.delete hs hne hnode hempty)

/-- A disk moves an entry even if a path below its destination is then too long to be read. -/
theorem overlong_of_move {host : String} (hs : m.backend.storage = .disk host) (hne : D ≠ [])
    (hp : (c.prune D hne).Clear S D) (hD : Storable D) (hthere : c.node? S ≠ none)
    {overwrite : Bool} (hold : c.node? D ≠ none → overwrite = true)
    (hempty : c.node? D = some .directory → ∀ name, c.node? (D ++ [name]) = none)
    {rest : List String} (hrest : c.node? (S ++ rest) ≠ none)
    (hlong : maxTextLength < (rootText (D ++ rest)).length) :
    (((m.within fun k => k.move (rootText S) (rootText D) overwrite).eval site).2.disk
      host).Overlong := by
  obtain ⟨d', hmove, harrives⟩ :=
    (h.disk_shows hs).move_arrives hne hp hD hthere hold hempty site.now
  have heval : (m.connection.move (rootText S) (rootText D) overwrite).eval site =
      (.ok (), site.setDisk host d') := by
    rw [m.connection.move_onDisk hs, Work.onDisk, Action.eval_ofFun, hmove]
  rw [eval_within, heval]
  dsimp only
  rw [Site.disk_setDisk, if_pos rfl]
  exact Disk.overlong_of_node (by simp [hne]) (by rwa [harrives]) hlong

/-- **An entry is moved** with all below it, in the place of something that may be replaced. -/
theorem move (hne : D ≠ []) (hp : (c.prune D hne).Passage S D) (hthere : c.node? S ≠ none)
    {overwrite : Bool} (hold : c.node? D ≠ none → overwrite = true)
    (hempty : c.node? D = some .directory → ∀ name, c.node? (D ++ [name]) = none) :
    m.Yields site (m.connection.move (rootText S) (rootText D) overwrite) () (.move S D hp) := by
  cases h with
  | disk hs h =>
    exact yields_onDisk (f := fun now d => d.move now (rootText S) (rootText D) overwrite) hs
      (m.connection.move_onDisk hs _ _ _)
      (h.move hne hp hthere hold hempty site.now)
  | @table T hT h =>
    have hkept : (c.prune D hne).node? S ≠ none := by
      rwa [Catalogue.node?_prune, if_neg hp.dest]
    have hD : Storable D := by
      simpa using hp.storable [] (by rwa [List.append_nil])
    obtain ⟨name, hs⟩ := storage_of_table? hT
    obtain ⟨after, hmove, hshows⟩ :
        m.Yields site (m.connection.changeTable name fun _ t =>
          t.move (rootText S) (rootText D) overwrite) () (.move S D hp) := by
      refine yields_changeTable (f := fun _ t => t.move (rootText S) (rootText D) overwrite) hT
        (fun name' hs' => ?_) (h.move hne hp hthere hold hempty)
      obtain rfl : name = name' := by
        rw [hs] at hs'
        exact Storage.table.inj hs'
      rfl
    refine ⟨_, ?_, hshows.told [.moved (rootText S) (rootText D)]⟩
    simp only [Connection.move, show m.connection.backend.storage = .table name from hs]
    rw [Action.eval_bind, hmove]
    dsimp only
    rw [Table.key_eq (c.storable S hthere), Table.key_eq hD]
    rfl

end Shows

end Mount

end MountSpace
