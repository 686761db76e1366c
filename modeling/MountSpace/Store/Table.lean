import MountSpace.Status
import MountSpace.Time.Moment

/-!
# Entries in a table

A tree of entries kept as rows of one table.  The root is implicit.  A row is found by the text
of its path, its siblings by the text of their common directory.

A prefix of paths is matched without regard to the case of ASCII letters; every other match is
exact.  No two rows may have one path.

Each operation returns the new table or fails as a whole, so that a failure leaves the table as
it was.

## Main definitions

* `Row`, `Table` — the rows.
* `Table.key`, `Table.split` — the text of a path, and its directory and name.
* `Table.isUnder` — the prefix match.
* `Table.status`, `Table.content`, `Table.list` — reading.
* `Table.write`, `Table.append`, `Table.makeDirectory`, `Table.makeLink`, `Table.delete`,
  `Table.move`, `Table.setTimes` — writing.
-/

namespace MountSpace

/-- One entry. -/
structure Row where
  /-- The text of its path. -/
  path : String
  /-- The text of the directory that holds it. -/
  parent : String
  /-- Its name. -/
  name : String
  /-- Its kind. -/
  kind : Kind
  /-- Its content, if it has any. -/
  content : Option Bytes := none
  /-- The length of its content. -/
  size : Nat := 0
  /-- The text a link was made with. -/
  target : Option String := none
  /-- When it was last read, in universal time. -/
  accessed : Civil
  /-- When it was last changed, in universal time. -/
  modified : Civil
  deriving DecidableEq, Repr

/-- The rows in the order in which they were added, or nothing while the table is missing. -/
structure Table where
  /-- The rows. -/
  rows? : Option (List Row) := none
  deriving DecidableEq, Repr

namespace Table

/-- A table without rows. -/
def empty : Table := ⟨some []⟩

/-- The rows, or none while the table is missing. -/
def rows (t : Table) : List Row := t.rows?.getD []

/-- The rows of a table that is there. -/
def all (t : Table) : Except Error (List Row) :=
  match t.rows? with
  | some rows => .ok rows
  | none => .error .tableMissing

@[simp] theorem all_some (rows : List Row) : all ⟨some rows⟩ = .ok rows := rfl

/-- The text under which a path is stored. -/
def key (path : String) : Except Error String := Path.localText <$> Path.read path

/-- The directory that holds a path, and its name.  What has no directory counts as held by the
root. -/
def split (path : String) : Except Error (String × String) := do
  let p ← Path.read path
  return ((p.parent?.map Path.localText).getD "/", p.name)

/-- Whether `path` continues `dir` after a slash, up to the case of ASCII letters. -/
def isUnder (dir path : String) : Bool :=
  ((dir.toList ++ ['/']).map Char.toLower).isPrefixOf (path.toList.map Char.toLower)

/-- The row stored under a text. -/
def find (t : Table) (key : String) : Except Error (Option Row) := do
  return (← t.all).find? (·.path == key)

/-- The rows held by a directory, by name. -/
def children (t : Table) (key : String) : Except Error (List Row) := do
  return ((← t.all).filter (·.parent == key)).mergeSort fun a b => a.name ≤ b.name

/-- Puts `f r` in the place of each row `r` stored under a text. -/
def modify (t : Table) (key : String) (f : Row → Row) : Table :=
  ⟨t.rows?.map (·.map fun r => if r.path == key then f r else r)⟩

end Table

/-- What is reported of a row. -/
def Row.status (r : Row) : Except Error Status := do
  let path ← Path.read r.path
  let target ← match r.target with
    | none | some "" => pure none
    | some text => some <$> Path.read text
  return {
    path, kind := r.kind
    size := if r.kind = .file then r.size else 0
    accessed := some (.ofCivil r.accessed)
    modified := some (.ofCivil r.modified)
    target }

namespace Table

/-! ## Reading -/

/-- The root is a directory without times. -/
def rootStatus : Status := { path := .root {}, kind := .directory }

/-- What is reported of the entry at a path. -/
def status (t : Table) (path : String) : Except Error (Option Status) := do
  let key ← key path
  if key = "/" then return some rootStatus
  match ← t.find key with
  | none => return none
  | some row => return some (← row.status)

/-- The row of something that is not a directory. -/
def findFile (t : Table) (key : String) : Except Error Row := do
  match ← t.find key with
  | none => throw (.notFound key)
  | some row => if row.kind = .directory then throw (.isDirectory key) else return row

/-- The content of the entry at a path. -/
def content (t : Table) (path : String) : Except Error Bytes := do
  return (← t.findFile (← key path)).content.getD []

/-- What is reported of the entries in a directory, by name. -/
def list (t : Table) (path : String) : Except Error (List Status) := do
  let key ← key path
  if key ≠ "/" then
    match ← t.find key with
    | some { kind := .directory, .. } => pure ()
    | _ => throw (.directoryNotFound key)
  (← t.children key).mapM Row.status

/-! ## Writing -/

/-- Adds a row for an entry that is not there yet. -/
def insert (t : Table) (now : Instant) (key : String) (kind : Kind) (content : Option Bytes)
    (target : Option String) : Except Error Table := do
  if (← t.find key).isSome then throw (.entryExists key)
  let (parent, name) ← split key
  let row : Row := {
    path := key, parent, name, kind, content, size := (content.getD []).length, target
    accessed := now.toCivil, modified := now.toCivil }
  return ⟨some ((← t.all) ++ [row])⟩

/-- Writes a file anew.  A row that is there is kept, with both times renewed. -/
def write (t : Table) (now : Instant) (path : String) (data : Bytes) (overwrite : Bool) :
    Except Error Table := do
  let key ← key path
  match ← t.find key with
  | none => t.insert now key .file (some data) none
  | some row =>
    if !overwrite then throw (.entryExists key)
    if row.kind ≠ .file then throw (.notRegular key)
    return t.modify key fun r =>
      { r with content := some data, size := data.length, modified := now.toCivil,
               accessed := now.toCivil }

/-- Appends to the content of the entry at a path. -/
def append (t : Table) (now : Instant) (path : String) (data : Bytes) : Except Error Table := do
  let key ← key path
  let row ← t.findFile key
  let content := row.content.getD [] ++ data
  return t.modify key fun r =>
    { r with content := some content, size := content.length, modified := now.toCivil }

/-- Makes a directory in a directory that is there. -/
def makeDirectory (t : Table) (now : Instant) (path : String) : Except Error Table := do
  let key ← key path
  let (parent, _) ← split key
  if parent ≠ "/" then
    match ← t.find parent with
    | some { kind := .directory, .. } => pure ()
    | _ => throw (.holderNotFound key)
  t.insert now key .directory none none

/-- Makes a link that keeps the text of its target. -/
def makeLink (t : Table) (now : Instant) (path target : String) : Except Error Table := do
  t.insert now (← key path) .link none (some target)

/-- Removes a row, and with a directory all rows under it.  Unless this is asked for, a directory
must be empty. -/
def remove (t : Table) (row : Row) (recursive : Bool) : Except Error Table := do
  let rows ← t.all
  let rest := rows.filter (·.path != row.path)
  if row.kind ≠ .directory then return ⟨some rest⟩
  if !recursive && !(← t.children row.path).isEmpty then throw (.notEmpty row.path)
  return ⟨some (rest.filter fun r => !isUnder row.path r.path)⟩

/-- Deletes the entry at a path, and says whether there was one. -/
def delete (t : Table) (path : String) (recursive : Bool) : Except Error (Bool × Table) := do
  match ← t.find (← key path) with
  | none => return (false, t)
  | some row => return (true, ← t.remove row recursive)

/-- The row under another path. -/
def moveRow (r : Row) (path : String) : Except Error Row := do
  let (parent, name) ← split path
  return { r with path, parent, name }

/-- The path `dest` continued as `path` continues `src`. -/
def rebase (src dest path : String) : String :=
  dest ++ String.ofList (path.toList.drop src.length)

/-- Moves an entry, and with a directory all rows under it.  The targets of links stay as they
are. -/
def move (t : Table) (src dest : String) (overwrite : Bool) : Except Error Table := do
  let src ← key src
  let dest ← key dest
  let some source ← t.find src | throw (.sourceNotFound src)
  let t ← match ← t.find dest with
    | none => pure t
    | some old => if overwrite then t.remove old false else throw (.destinationExists dest)
  if src = dest then return t
  let rows ← (← t.all).mapM fun r => do
    if source.kind = .directory ∧ r.path ≠ src ∧ isUnder src r.path then
      return (r.path, ← moveRow r (rebase src dest r.path))
    else return (r.path, r)
  let moved ← moveRow source dest
  if !rows.any (·.1 == src) then throw .rowGone
  let rows := rows.map fun (old, r) => if old = src then moved else r
  if (rows.map Row.path).Nodup then return ⟨some rows⟩ else throw .duplicatePath

/-- The date and time of day of a moment in universal time. -/
def stored (m : Moment) : Except Error Civil :=
  if m.instant.InRange then .ok m.instant.toCivil else .error .timeOutOfRange

/-- Sets the times that are given.  The root has none. -/
def setTimes (t : Table) (path : String) (accessed modified : Option Moment) :
    Except Error Table := do
  let key ← key path
  if key = "/" then return t
  let some _ ← t.find key | throw (.notFound key)
  let accessed ← accessed.mapM stored
  let modified ← modified.mapM stored
  return t.modify key fun r =>
    { r with accessed := accessed.getD r.accessed, modified := modified.getD r.modified }

end Table

end MountSpace
