import MountSpace.Store.Site

/-!
# Backends and mounts

A backend is a store with its capability.  A mount is a backend with a label and, for a table,
the database in which the table lives.  Work on a mount goes through a connection: with a
database it is one session, which is rolled back as a whole when it fails.

## Main definitions

* `Storage`, `Backend`, `Mount` — what is mounted.
* `Connection` — a backend as one piece of work reaches it.
* `Connection.status`, `Connection.content`, …, `Connection.setTimes` — the operations that every
  backend offers.
* `Mount.within` — a piece of work on a mount.
-/

namespace MountSpace

/-- Where a backend keeps its entries. -/
inductive Storage
  /-- In a directory of the host. -/
  | disk (host : String)
  /-- In a table of this name. -/
  | table (name : String)
  deriving DecidableEq, Repr

/-- A store with its capability. -/
structure Backend where
  /-- Where the entries are. -/
  storage : Storage
  /-- How the backend is addressed and what it honours. -/
  capability : Capability
  /-- Why it cannot be opened, if it cannot. -/
  openFault : Option String := none
  /-- Why it cannot be closed, if it cannot. -/
  closeFault : Option String := none
  deriving DecidableEq, Repr

/-- A mounted backend. -/
structure Mount where
  /-- Tells mounts of one address apart. -/
  serial : Nat
  /-- The backend. -/
  backend : Backend
  /-- The database whose sessions the backend works in, if it has one. -/
  database : Option String := none
  /-- The name that is shown. -/
  label : String
  deriving DecidableEq, Repr

/-- A backend as one piece of work reaches it. -/
structure Connection where
  /-- The backend. -/
  backend : Backend
  /-- The database of the session, if there is a session. -/
  database : Option String
  deriving DecidableEq, Repr

namespace Backend

/-- Opens the backend. -/
def opened (b : Backend) : Except Error Unit :=
  match b.openFault with
  | some words => .error (.failure words)
  | none => .ok ()

/-- Closes the backend. -/
def closed (b : Backend) : Except Error Unit :=
  match b.closeFault with
  | some words => .error (.failure words)
  | none => .ok ()

end Backend

namespace Connection

/-- The table of the backend in the database of the session. -/
def tableIn (c : Connection) (name : String) : Except Error TableName :=
  match c.database with
  | some database => .ok ⟨database, name⟩
  | none => .error .sessionMissing

/-- An operation on the table of the backend. -/
def withTable {α : Type} (c : Connection) (name : String)
    (f : Instant → Table → Except Error (α × Table)) : Work α := do
  Work.onTable (← .ofExcept (c.tableIn name)) f

/-- An operation that gives a table its next state. -/
def changeTable (c : Connection) (name : String) (f : Instant → Table → Except Error Table) :
    Work Unit :=
  c.withTable name fun now t => ((), ·) <$> f now t

/-- An operation that gives a disk its next state or fails without a trace. -/
def changeDisk (host : String) (f : Instant → Disk → Except Error Disk) : Work Unit :=
  Work.onDisk host fun now d =>
    match f now d with
    | .ok d => (.ok (), d)
    | .error e => (.error e, d)

/-- What is reported of the entry at a path, in a given state of the site. -/
def statusIn (c : Connection) (site : Site) (path : String) : Except Error (Option Status) :=
  match c.backend.storage with
  | .disk host => (site.disk host).status path
  | .table name => do (site.table (← c.tableIn name)).status path

/-- What is reported of the entry at a path. -/
def status (c : Connection) (path : String) : Work (Option Status) :=
  .peek fun site => c.statusIn site path

/-- The content of the file at a path. -/
def content (c : Connection) (path : String) : Work Bytes :=
  .peek fun site =>
    match c.backend.storage with
    | .disk host => (site.disk host).content path
    | .table name => do (site.table (← c.tableIn name)).content path

/-- What is reported of the entries in a directory, by name. -/
def list (c : Connection) (path : String) : Work (List Status) :=
  .peek fun site =>
    match c.backend.storage with
    | .disk host => (site.disk host).list path
    | .table name => do (site.table (← c.tableIn name)).list path

/-- Writes a file anew. -/
def write (c : Connection) (path : String) (data : Bytes) (overwrite : Bool) : Work Unit :=
  match c.backend.storage with
  | .disk host => Work.onDisk host fun now d => d.write now path data overwrite
  | .table name => c.changeTable name fun now t => t.write now path data overwrite

/-- Appends to the content of the file at a path. -/
def append (c : Connection) (path : String) (data : Bytes) : Work Unit :=
  match c.backend.storage with
  | .disk host => changeDisk host fun now d => d.append now path data
  | .table name => c.changeTable name fun now t => t.append now path data

/-- Makes a directory in a directory that is there. -/
def makeDirectory (c : Connection) (path : String) : Work Unit :=
  match c.backend.storage with
  | .disk host => changeDisk host fun now d => d.makeDirectory now path
  | .table name => c.changeTable name fun now t => t.makeDirectory now path

/-- Makes a link that keeps the text of its target. -/
def makeLink (c : Connection) (path target : String) : Work Unit :=
  match c.backend.storage with
  | .disk host => changeDisk host fun now d => d.makeLink now path target
  | .table name => c.changeTable name fun now t => t.makeLink now path target

/-- Deletes the entry at a path, and says whether there was one. -/
def delete (c : Connection) (path : String) (recursive : Bool) : Work Bool :=
  match c.backend.storage with
  | .disk host => Work.onDisk host fun now d => d.delete now path recursive
  | .table name => c.withTable name fun _ t => t.delete path recursive

/-- Moves an entry, and with a directory all below it.  A table reports the move. -/
def move (c : Connection) (src dest : String) (overwrite : Bool) : Work Unit :=
  match c.backend.storage with
  | .disk host => Work.onDisk host fun now d => d.move now src dest overwrite
  | .table name => do
    c.changeTable name fun _ t => t.move src dest overwrite
    let src ← .ofExcept (Table.key src)
    let dest ← .ofExcept (Table.key dest)
    Work.report (.moved src dest)

/-- Sets the times that are given. -/
def setTimes (c : Connection) (path : String) (accessed modified : Option Moment) : Work Unit :=
  match c.backend.storage with
  | .disk host => changeDisk host fun _ d => d.setTimes path accessed modified
  | .table name => c.changeTable name fun _ t => t.setTimes path accessed modified

section Disk

variable (c : Connection) {host : String} (h : c.backend.storage = .disk host)

include h

theorem write_onDisk (path : String) (data : Bytes) (overwrite : Bool) :
    c.write path data overwrite =
      Work.onDisk host fun now d => d.write now path data overwrite := by
  simp only [write, h]

theorem append_onDisk (path : String) (data : Bytes) :
    c.append path data = changeDisk host fun now d => d.append now path data := by
  simp only [append, h]

theorem makeDirectory_onDisk (path : String) :
    c.makeDirectory path = changeDisk host fun now d => d.makeDirectory now path := by
  simp only [makeDirectory, h]

theorem makeLink_onDisk (path target : String) :
    c.makeLink path target = changeDisk host fun now d => d.makeLink now path target := by
  simp only [makeLink, h]

theorem delete_onDisk (path : String) (recursive : Bool) :
    c.delete path recursive = Work.onDisk host fun now d => d.delete now path recursive := by
  simp only [delete, h]

theorem move_onDisk (src dest : String) (overwrite : Bool) :
    c.move src dest overwrite = Work.onDisk host fun now d => d.move now src dest overwrite := by
  simp only [move, h]

theorem setTimes_onDisk (path : String) (accessed modified : Option Moment) :
    c.setTimes path accessed modified =
      changeDisk host fun _ d => d.setTimes path accessed modified := by
  simp only [setTimes, h]

end Disk

section Table

variable (c : Connection) {name : String} (h : c.backend.storage = .table name)

include h

theorem write_onTable (path : String) (data : Bytes) (overwrite : Bool) :
    c.write path data overwrite =
      c.changeTable name fun now t => t.write now path data overwrite := by
  simp only [write, h]

theorem append_onTable (path : String) (data : Bytes) :
    c.append path data = c.changeTable name fun now t => t.append now path data := by
  simp only [append, h]

theorem makeDirectory_onTable (path : String) :
    c.makeDirectory path = c.changeTable name fun now t => t.makeDirectory now path := by
  simp only [makeDirectory, h]

theorem makeLink_onTable (path target : String) :
    c.makeLink path target = c.changeTable name fun now t => t.makeLink now path target := by
  simp only [makeLink, h]

theorem delete_onTable (path : String) (recursive : Bool) :
    c.delete path recursive = c.withTable name fun _ t => t.delete path recursive := by
  simp only [delete, h]

theorem move_onTable (src dest : String) (overwrite : Bool) :
    c.move src dest overwrite = (do
      c.changeTable name fun _ t => t.move src dest overwrite
      let src ← .ofExcept (Table.key src)
      let dest ← .ofExcept (Table.key dest)
      Work.report (.moved src dest)) := by
  simp only [move, h]

theorem setTimes_onTable (path : String) (accessed modified : Option Moment) :
    c.setTimes path accessed modified =
      c.changeTable name fun _ t => t.setTimes path accessed modified := by
  simp only [setTimes, h]

end Table

end Connection

namespace Mount

/-- How the mount is addressed and what it honours. -/
def capability (m : Mount) : Capability := m.backend.capability

/-- Where the mount is addressed. -/
def location (m : Mount) : Location := m.capability.location

/-- Whether work on the mount runs in sessions. -/
def hasSessions (m : Mount) : Bool := m.database.isSome

/-- The connection of one piece of work. -/
def connection (m : Mount) : Connection := ⟨m.backend, m.database⟩

/-- What encloses a piece of work that runs in a session: when it fails, the tables are again as
they were before. -/
def session (before : Site) : UnitOfWork Error Site where
  commit := pure ()
  rollback := modify (Site.restoreTables before)
  close := pure ()

/-- A piece of work on a mount. -/
def within {α : Type} (m : Mount) (work : Connection → Work α) : Work α :=
  UnitOfWork.runWithin (m.database.map fun _ => session <$> get) fun _ => work m.connection

/-- What is reported of the entry at a path of the mount, in a given state of the site. -/
def statusIn (m : Mount) (site : Site) (path : String) : Except Error (Option Status) :=
  m.connection.statusIn site path

/-- A mount whose label, left empty, is the address of its root. -/
def make (serial : Nat) (backend : Backend) (database : Option String) (label : String) : Mount :=
  { serial, backend, database
    label := if label = "" then backend.capability.rootPath.text else label }

end Mount

end MountSpace
