import MountSpace.Action
import MountSpace.Journal
import MountSpace.Store.Disk
import MountSpace.Store.Table

/-!
# The site

Everything that mounted stores are backed by: directories of the host and tables of databases,
with the current time and the journal.

## Main definitions

* `TableName` — a table of a database.
* `Site` — disks, tables, time and journal.
* `Work` — an action on the site.
* `Site.disk`, `Site.table`, `Site.setDisk`, `Site.setTable` — the stores by name.
* `Work.onDisk`, `Work.onTable` — an operation on one store.
* `Site.restoreTables` — the tables as they were.
-/

namespace MountSpace

/-- A table of a database. -/
structure TableName where
  /-- The database. -/
  database : String
  /-- The table in it. -/
  table : String
  deriving DecidableEq, Repr

/-- Everything that mounted stores are backed by. -/
structure Site where
  /-- The disks, by the name of their host directory. -/
  disks : List (String × Disk) := []
  /-- The tables that have been made. -/
  tables : List (TableName × Table) := []
  /-- The current time. -/
  now : Instant
  /-- The reports, the latest last. -/
  journal : List Event := []
  deriving Repr

/-- An action on the site; what it did before a failure stays done. -/
abbrev Work (α : Type) := Action Error Site α

namespace Site

/-- The disk around a host directory.  A directory nobody has made yet is missing from it. -/
def disk (site : Site) (host : String) : Disk :=
  (site.disks.lookup host).getD (Disk.homeless {} site.now)

/-- A table; nothing is in one nobody has made yet. -/
def table (site : Site) (name : TableName) : Table := (site.tables.lookup name).getD {}

/-- Puts another state of a disk in the place of the old one. -/
def setDisk (site : Site) (host : String) (d : Disk) : Site :=
  { site with disks := setEntry host d site.disks }

/-- Puts another state of a table in the place of the old one. -/
def setTable (site : Site) (name : TableName) (t : Table) : Site :=
  { site with tables := setEntry name t site.tables }

/-- The site with the tables as they were before. -/
def restoreTables (before site : Site) : Site := { site with tables := before.tables }

/-- Adds a report. -/
def report (site : Site) (e : Event) : Site := { site with journal := site.journal ++ [e] }

end Site

namespace Work

/-- An operation on one disk. -/
def onDisk {α : Type} (host : String) (f : Instant → Disk → Except Error α × Disk) : Work α :=
  .ofFun fun site =>
    let (r, d) := f site.now (site.disk host)
    (r, site.setDisk host d)

/-- An operation on one table, which fails as a whole. -/
def onTable {α : Type} (name : TableName) (f : Instant → Table → Except Error (α × Table)) :
    Work α :=
  .ofFun fun site =>
    match f site.now (site.table name) with
    | .ok (a, t) => (.ok a, site.setTable name t)
    | .error e => (.error e, site)

/-- Adds a report. -/
def report (e : Event) : Work Unit := modify (·.report e)

end Work

end MountSpace
