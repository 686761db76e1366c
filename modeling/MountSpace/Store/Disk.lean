import MountSpace.Store.HostTree
import MountSpace.Time.Moment

/-!
# Entries in a directory of the host

A tree of entries kept in one directory of the host, its home, which stands in the root of the
host.  A path leads from the home along its names.  No name but the last may be a link of the host:
a caller resolves links itself, and the backend refuses a way that leads through one.  It does not
look at the home itself, which a caller may have replaced by a link.

Reading leaves every entry as it is, the time of its last reading included.

An operation that fails half-way leaves behind what it has done.

## Main definitions

* `Disk` — the host entries around a home directory.
* `Disk.way` — the way of a path, checked for links.
* `Disk.status`, `Disk.content`, `Disk.list` — reading.
* `Disk.write`, `Disk.append`, `Disk.makeDirectory`, `Disk.makeLink`, `Disk.delete`, `Disk.move`,
  `Disk.setTimes` — writing.
* `Disk.listing` — all that lies under the home.
-/

namespace MountSpace

/-- The host entries around a home directory. -/
structure Disk where
  /-- The entries. -/
  tree : HostTree
  deriving DecidableEq, Repr

namespace Disk

/-- The name of the home in the root of the host. -/
def home : String := "home"

/-- A disk whose home is still to be made. -/
def homeless (limits : HostLimits) (now : Instant) : Disk := ⟨.bare limits now⟩

/-- A disk with an empty home. -/
def fresh (limits : HostLimits) (now : Instant) : Disk :=
  ⟨(HostTree.bare limits now).put [home] (Node.directory.fresh now)⟩

/-- What the home is. -/
def homeNode? (d : Disk) : Option Node := (d.tree.find? [home]).map HostEntry.node

/-- Fails when a name before the last of `names`, which continue `before`, is a link. -/
def checkWay (d : Disk) (path : String) (before : List String) : List String → Except Error Unit
  | [] | [_] => .ok ()
  | name :: rest =>
    let here := before ++ [name]
    match d.tree.stat false (home :: here) with
    | .ok ⟨.link _, _, _⟩ => .error (.linkOnTheWay path ("/".intercalate here))
    | .error .nameTooLong => .error (.host .nameTooLong)
    | _ => d.checkWay path here rest

/-- The way of a path from the root of the host.  After the home, no name but the last is a
link. -/
def way (d : Disk) (path : String) : Except Error (List String) := do
  let p ← Path.read path
  d.checkWay path [] p.segments
  return home :: p.segments

/-- An outcome of the host, with the refusals that `translate` knows put in other words. -/
def fromHost {α : Type} (translate : HostError → Option Error) (r : Except HostError α) :
    Except Error α :=
  r.mapError fun cause => (translate cause).getD (.host cause)

/-! ## Reading -/

/-- What is reported of an entry of the host. -/
def report (path : String) (entry : HostEntry) : Except Error Status := do
  let (kind, size, target) ← match entry.node with
    | .file content => pure (Kind.file, content.length, none)
    | .directory => pure (Kind.directory, 0, none)
    | .link text => do pure (Kind.link, 0, some (← Path.read text))
  return {
    path := ← Path.read path, kind, size, target
    accessed := some entry.accessed, modified := some entry.modified }

/-- What is reported of the entry at a path. -/
def status (d : Disk) (path : String) : Except Error (Option Status) := do
  match d.tree.stat false (← d.way path) with
  | .ok entry => return some (← report path entry)
  | .error .noEntry | .error .notDirectory => return none
  | .error cause => throw (.host cause)

/-- The content of the file at a path. -/
def content (d : Disk) (path : String) : Except Error Bytes := do
  fromHost (fun
    | .noEntry => some (.notFound path)
    | .isDirectory => some (.isDirectory path)
    | _ => none) (d.tree.read (← d.way path))

/-- What is reported of the entries in a directory, by name. -/
def list (d : Disk) (path : String) : Except Error (List Status) := do
  let way ← d.way path
  let base ← Path.read path
  let entries ← fromHost (fun
    | .noEntry => some (.directoryNotFound path)
    | _ => none) (d.tree.list way)
  let reports ← entries.mapM fun (name, entry) => report (base.child [name]).localText entry
  return reports.mergeSort fun a b => a.path.name ≤ b.path.name

/-! ## Writing -/

/-- Puts a changed tree in the place of the old one. -/
def withTree (r : Except Error HostTree) : Except Error Disk := Disk.mk <$> r

/-- Writes a file anew. -/
def write (d : Disk) (now : Instant) (path : String) (data : Bytes) (overwrite : Bool) :
    Except Error Unit × Disk :=
  match d.way path with
  | .error e => (.error e, d)
  | .ok way =>
    if !overwrite && d.tree.isThere way then (.error (.entryExists path), d)
    else
      let (r, tree) := d.tree.replaceFile now way data
      (r.mapError .host, ⟨tree⟩)

/-- Appends to the content of the file at a path. -/
def append (d : Disk) (now : Instant) (path : String) (data : Bytes) : Except Error Disk := do
  let way ← d.way path
  match d.tree.stat true way with
  | .ok ⟨.file _, _, _⟩ => withTree ((d.tree.append now way data).mapError .host)
  | .error .nameTooLong => throw (.host .nameTooLong)
  | _ => throw (.notFound path)

/-- Makes a directory in a directory that is there. -/
def makeDirectory (d : Disk) (now : Instant) (path : String) : Except Error Disk := do
  withTree <| fromHost (fun
    | .exists => some (.entryExists path)
    | .noEntry => some (.holderNotFound path)
    | _ => none) (d.tree.makeDirectory now (← d.way path))

/-- Makes a link that keeps the text of its target. -/
def makeLink (d : Disk) (now : Instant) (path target : String) : Except Error Disk := do
  let way ← d.way path
  if target.toList.any (·.toNat == 0) then throw .zeroCharacter
  withTree <| fromHost (fun
    | .exists => some (.entryExists path)
    | _ => none) (d.tree.makeLink now way target)

/-- Takes away the entry at the end of a way. -/
def remove (d : Disk) (now : Instant) (path : String) (way : List String) (recursive : Bool) :
    Except Error Unit × Disk :=
  match d.tree.stat false way with
  | .error cause => (.error (.host cause), d)
  | .ok entry =>
    if entry.node = .directory ∧ recursive then
      let (r, tree) := d.tree.removeTree now way
      (r.mapError .host, ⟨tree⟩)
    else
      let r := if entry.node = .directory then
          fromHost (fun
            | .notEmpty | .exists => some (.notEmpty path)
            | _ => none) (d.tree.removeDirectory now way)
        else (d.tree.unlink now way).mapError .host
      match r with
      | .ok tree => (.ok (), ⟨tree⟩)
      | .error e => (.error e, d)

/-- Deletes the entry at a path, and says whether there was one. -/
def delete (d : Disk) (now : Instant) (path : String) (recursive : Bool) :
    Except Error Bool × Disk :=
  match d.way path with
  | .error e => (.error e, d)
  | .ok way =>
    if d.tree.isThere way then
      let (r, d) := d.remove now path way recursive
      (r.map fun _ => true, d)
    else (.ok false, d)

/-- A missing entry met while `src` is moved counts as a missing source. -/
def blameSource (src : String) : Error → Error
  | .host .noEntry => .sourceNotFound src
  | e => e

/-- Moves an entry, and with a directory all below it.  A destination that may be overwritten is
taken away first. -/
def move (d : Disk) (now : Instant) (src dest : String) (overwrite : Bool) :
    Except Error Unit × Disk :=
  match d.way src, d.way dest with
  | .error e, _ => (.error e, d)
  | .ok _, .error e => (.error e, d)
  | .ok srcWay, .ok destWay =>
    let isThere := d.tree.isThere destWay
    if isThere && !overwrite then (.error (.destinationExists dest), d)
    else
      let (cleared, d) := if isThere then d.remove now dest destWay false else (.ok (), d)
      match cleared with
      | .error e => (.error (blameSource src e), d)
      | .ok _ =>
        match d.tree.move now srcWay destWay with
        | .ok tree => (.ok (), ⟨tree⟩)
        | .error cause => (.error (blameSource src (.host cause)), d)

/-- Sets the times that are given. -/
def setTimes (d : Disk) (path : String) (accessed modified : Option Moment) :
    Except Error Disk := do
  let way ← d.way path
  let changed := d.tree.setTimes way (accessed.map Moment.instant) (modified.map Moment.instant)
  withTree (changed.mapError .host)

/-- All that lies under the home, with its path from there. -/
def listing (d : Disk) : List (List String × HostEntry) :=
  d.tree.entries.filterMap fun e =>
    match e.1 with
    | top :: name :: rest => if top = home then some (name :: rest, e.2) else none
    | _ => none

end Disk

end MountSpace
