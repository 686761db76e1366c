import MountSpace.Status
import MountSpace.Store.Keyed

/-!
# A tree of host entries

The file system of the host: a tree of files, directories and links under the root of the host,
with the rules of the host for walking it and for changing it.  It holds the directory that is
mounted and all that lies outside it.

A place is the list of names from the root.  Every entry is listed with its place, the root itself
with the empty one.  On the way a double dot goes up, also out of the directory a caller was
given; above the root there is only the root.  A link that stands before other names is always
followed, one in the last place on demand.  The text of a link is read from the directory that
holds it, or from the root if it starts with a slash, so a link can lead to any entry of the host.

## Main definitions

* `Node`, `HostEntry`, `HostLimits`, `HostTree` — the tree, and how long its names may be.
* `HostTree.advance`, `HostTree.locate` — the walk.
* `HostTree.holder` — the directory that holds, or is to hold, the last name of a way.
* `HostTree.stat`, `HostTree.read`, `HostTree.list` — reading.
* `HostTree.makeDirectory`, `HostTree.makeLink`, `HostTree.replaceFile`, `HostTree.append`,
  `HostTree.unlink`, `HostTree.removeDirectory`, `HostTree.removeTree`, `HostTree.move`,
  `HostTree.setTimes` — writing.
-/

namespace MountSpace

/-- What an entry is. -/
inductive Node
  /-- A file with its content. -/
  | file (content : Bytes)
  /-- A directory. -/
  | directory
  /-- A link with its text. -/
  | link (text : String)
  deriving DecidableEq, Repr

/-- An entry with its times. -/
structure HostEntry where
  /-- What the entry is. -/
  node : Node
  /-- When it was last read. -/
  accessed : Instant
  /-- When it was last changed. -/
  modified : Instant
  deriving DecidableEq, Repr

/-- The names from the root of the host. -/
abbrev Place := List String

/-- How long names and texts may be, in bytes; a limit that is left out does not hold. -/
structure HostLimits where
  /-- The most bytes a name may have. -/
  nameBytes : Option Nat := some 255
  /-- The most bytes a way or the text of a link may have. -/
  textBytes : Option Nat := some 4095
  /-- The bytes that every way has before the slash of its first name. -/
  topBytes : Nat := 16
  deriving DecidableEq, Repr

/-- The entries with their places. -/
structure HostTree where
  /-- The entries, in the order in which they were made. -/
  entries : List (Place × HostEntry)
  /-- The limits of the host. -/
  limits : HostLimits := {}
  deriving DecidableEq, Repr

/-- An entry made or renewed at one moment. -/
def Node.fresh (node : Node) (now : Instant) : HostEntry := ⟨node, now, now⟩

namespace HostLimits

/-- Whether a name is too long. -/
def refusesName (l : HostLimits) (name : String) : Bool :=
  l.nameBytes.any (· < name.utf8ByteSize)

/-- Whether a text of so many bytes is too long. -/
def refusesText (l : HostLimits) (bytes : Nat) : Bool := l.textBytes.any (· < bytes)

/-- Whether a way from the root is too long, whatever it leads to.  Each name comes after a
slash. -/
def refusesWay (l : HostLimits) (names : List String) : Bool :=
  l.refusesText (names.foldl (fun n name => n + 1 + name.utf8ByteSize) l.topBytes)

end HostLimits

namespace HostTree

/-- The most links that one walk follows. -/
def maxLinks : Nat := 40

/-- A host with an empty root directory. -/
def bare (limits : HostLimits) (now : Instant) : HostTree :=
  { entries := [([], Node.directory.fresh now)], limits }

/-- The entry at a place. -/
def find? (t : HostTree) (place : Place) : Option HostEntry :=
  t.entries.lookup place

/-- Puts an entry at a place. -/
def put (t : HostTree) (place : Place) (entry : HostEntry) : HostTree :=
  { t with entries := setEntry place entry t.entries }

/-- An entry is found where it was put. -/
@[simp] theorem find?_put_self (t : HostTree) (place : Place) (entry : HostEntry) :
    (t.put place entry).find? place = some entry := lookup_setEntry_self place entry t.entries

/-- Putting an entry at one place leaves the others. -/
theorem find?_put_of_ne (t : HostTree) {place other : Place} (h : other ≠ place)
    (entry : HostEntry) : (t.put place entry).find? other = t.find? other :=
  lookup_setEntry_of_ne h entry t.entries

/-- Changes the entry at a place, if there is one. -/
def modify (t : HostTree) (place : Place) (f : HostEntry → HostEntry) : HostTree :=
  { t with entries := t.entries.map fun e => if e.1 == place then (e.1, f e.2) else e }

/-- Marks the directory at a place as changed. -/
def touch (t : HostTree) (now : Instant) (place : Place) : HostTree :=
  t.modify place fun e => { e with modified := now }

/-- Takes away the entry at a place and everything below it. -/
def prune (t : HostTree) (place : Place) : HostTree :=
  { t with entries := t.entries.filter fun e => !place.isPrefixOf e.1 }

/-- Changing the entry at a place changes nothing else. -/
theorem find?_modify (t : HostTree) (place other : Place) (f : HostEntry → HostEntry) :
    (t.modify place f).find? other =
      if other == place then (t.find? place).map f else t.find? other :=
  lookup_map_key place other f t.entries

/-- What is not below a pruned place is still there. -/
theorem find?_prune (t : HostTree) (place other : Place) :
    (t.prune place).find? other = if place.isPrefixOf other then none else t.find? other := by
  refine (lookup_filter_key (fun p => !place.isPrefixOf p) other t.entries).trans ?_
  cases h : place.isPrefixOf other <;> rfl

/-- Whether a place holds nothing below it. -/
def isEmptyAt (t : HostTree) (place : Place) : Bool :=
  !t.entries.any fun e => place.isPrefixOf e.1 && e.1 != place

/-! ## Walking -/

/-- How far a walk comes before it ends, fails or meets a link that it has to follow. -/
inductive Progress
  /-- It ends at a place, where there may be nothing. -/
  | at_ (place : Place)
  /-- It meets a link in the directory `dir`, with the names `rest` still to go. -/
  | link (dir : Place) (text : String) (rest : List String)
  /-- It fails. -/
  | failed (cause : HostError)
  deriving DecidableEq, Repr

/-- Where a name leads from a directory. -/
def next (dir : Place) (name : String) : Place :=
  if name = ".." then dir.dropLast else if name = "." then dir else dir ++ [name]

/-- Walks from a directory along names, up to the first link that has to be followed. -/
def advance (t : HostTree) (follow : Bool) (dir : Place) : List String → Progress
  | [] => .at_ dir
  | name :: rest =>
    if t.limits.refusesName name then .failed .nameTooLong
    else
      match (t.find? (next dir name)).map HostEntry.node, rest with
      | some (.link text), [] => if follow then .link dir text [] else .at_ (next dir name)
      | _, [] => .at_ (next dir name)
      | some .directory, rest => t.advance follow (next dir name) rest
      | some (.link text), rest => .link dir text rest
      | some (.file _), _ => .failed .notDirectory
      | none, _ => .failed .noEntry

/-- The names in the text of a link.  A slash at the end asks for a directory, as a dot does. -/
def linkNames (text : String) : List String :=
  let names := (Path.splitNames text.toList).filter (· ≠ "")
  if text.toList.getLast? = some '/' then names ++ ["."] else names

/-- Where the text of a link in a directory starts: at the root if it begins with a slash. -/
def linkStart (dir : Place) (text : String) : Place :=
  if text.toList.head? = some '/' then [] else dir

/-- Walks from a directory along names, following links while they last. -/
def locate (t : HostTree) (follow : Bool) (links : Nat) (dir : Place) (names : List String) :
    Except HostError Place :=
  match t.advance follow dir names with
  | .at_ place => .ok place
  | .failed cause => .error cause
  | .link dir text rest =>
    match links with
    | 0 => .error .tooManyLinks
    | links + 1 => t.locate follow links (linkStart dir text) (linkNames text ++ rest)

/-- The place a way from the root leads to. -/
def placeOf (t : HostTree) (follow : Bool) (names : List String) : Except HostError Place :=
  if t.limits.refusesWay names then .error .nameTooLong else t.locate follow maxLinks [] names

/-- The entry a way leads to. -/
def stat (t : HostTree) (follow : Bool) (names : List String) : Except HostError HostEntry := do
  match t.find? (← t.placeOf follow names) with
  | some entry => .ok entry
  | none => .error .noEntry

/-- Whether there is an entry at the end of a way; a way that cannot be walked has none. -/
def isThere (t : HostTree) (names : List String) : Bool :=
  match t.stat false names with
  | .ok _ => true
  | .error _ => false

/-- The directory that holds the last name of a way, and that name. -/
def holder (t : HostTree) (names : List String) : Except HostError (Place × String) := do
  if t.limits.refusesWay names then throw .nameTooLong
  let dir ← t.placeOf true names.dropLast
  match (t.find? dir).map HostEntry.node with
  | some .directory => .ok (dir, names.getLast?.getD ".")
  | some _ => .error .notDirectory
  | none => .error .noEntry

/-- Whether a last name points at the directory itself or at the one above. -/
def isDots (name : String) : Bool := name == "." || name == ".."

/-- The place at which a new entry can be made. -/
def vacancy (t : HostTree) (names : List String) : Except HostError Place := do
  let (dir, name) ← t.holder names
  if isDots name then .error .exists
  else if t.limits.refusesName name then .error .nameTooLong
  else if (t.find? (dir ++ [name])).isSome then .error .exists
  else .ok (dir ++ [name])

/-! ## Reading -/

/-- The content of a file, found through links. -/
def read (t : HostTree) (names : List String) : Except HostError Bytes := do
  match (← t.stat true names).node with
  | .file content => .ok content
  | _ => .error .isDirectory

/-- The entries that a place holds, with their names. -/
def childrenOf (t : HostTree) (place : Place) : List (String × HostEntry) :=
  t.entries.filterMap fun e =>
    match e.1.getLast? with
    | some name => if e.1 = place ++ [name] then some (name, e.2) else none
    | none => none

/-- The entries in a directory, found through links, with their names.  Each is looked up by the
way it is listed under, which fails where that is too long. -/
def list (t : HostTree) (names : List String) : Except HostError (List (String × HostEntry)) := do
  let place ← t.placeOf true names
  match (t.find? place).map HostEntry.node with
  | some .directory =>
    if (t.childrenOf place).any fun e =>
        t.limits.refusesWay (names ++ [e.1]) || t.limits.refusesName e.1 then
      .error .nameTooLong
    else .ok (t.childrenOf place)
  | some _ => .error .notDirectory
  | none => .error .noEntry

/-! ## Writing -/

/-- Puts a new entry where there is none, and marks its directory as changed. -/
def create (t : HostTree) (now : Instant) (names : List String) (node : Node) :
    Except HostError HostTree := do
  let place ← t.vacancy names
  return (t.put place (node.fresh now)).touch now place.dropLast

/-- Makes a directory. -/
def makeDirectory (t : HostTree) (now : Instant) (names : List String) :
    Except HostError HostTree :=
  t.create now names .directory

/-- Makes a link.  An empty text counts as no entry, a long one as too long a name. -/
def makeLink (t : HostTree) (now : Instant) (names : List String) (text : String) :
    Except HostError HostTree :=
  if text = "" then .error .noEntry
  else if t.limits.refusesText text.utf8ByteSize then .error .nameTooLong
  else t.create now names (.link text)

/-- Puts a file with the given content in the place of whatever is there, links included, except
a directory.  The content is first written beside it, so its directory is changed even when the
replacement is refused. -/
def replaceFile (t : HostTree) (now : Instant) (names : List String) (data : Bytes) :
    Except HostError Unit × HostTree :=
  match t.holder names with
  | .error cause => (.error cause, t)
  | .ok (dir, name) =>
    let t := t.touch now dir
    if isDots name then (.error .busy, t)
    else if t.limits.refusesName name then (.error .nameTooLong, t)
    else
      match (t.find? (dir ++ [name])).map HostEntry.node with
      | some .directory => (.error .isDirectory, t)
      | _ => (.ok (), t.put (dir ++ [name]) ((Node.file data).fresh now))

/-- Appends to a file, found through links. -/
def append (t : HostTree) (now : Instant) (names : List String) (data : Bytes) :
    Except HostError HostTree := do
  let place ← t.placeOf true names
  match t.find? place with
  | some ⟨.file content, accessed, modified⟩ =>
    return t.put place
      ⟨.file (content ++ data), accessed, if data.isEmpty then modified else now⟩
  | some _ => .error .isDirectory
  | none => .error .noEntry

/-- Takes away a file or a link. -/
def unlink (t : HostTree) (now : Instant) (names : List String) : Except HostError HostTree := do
  let place ← t.placeOf false names
  return (t.prune place).touch now place.dropLast

/-- Takes away an empty directory. -/
def removeDirectory (t : HostTree) (now : Instant) (names : List String) :
    Except HostError HostTree := do
  let (dir, name) ← t.holder names
  if isDots name || !t.isEmptyAt (dir ++ [name]) then .error .notEmpty
  else return (t.prune (dir ++ [name])).touch now dir

/-- Takes away a directory with all it holds.  The directory above the one a way starts from is
emptied and then not found any more, since the way to it is gone. -/
def removeTree (t : HostTree) (now : Instant) (names : List String) :
    Except HostError Unit × HostTree :=
  match t.holder names with
  | .error cause => (.error cause, t)
  | .ok (dir, name) =>
    if isDots name then
      let place := next dir name
      (.error .noEntry,
        { t with entries := t.entries.filter fun e => !place.isPrefixOf e.1 || e.1 == place })
    else (.ok (), (t.prune (dir ++ [name])).touch now dir)

/-- The place `dest` continued as `place` continues `src`. -/
def rebase (src dest place : Place) : Place :=
  if src.isPrefixOf place then dest ++ place.drop src.length else place

/-- Moves an entry, with all below it, to a place that is free. -/
def move (t : HostTree) (now : Instant) (src dest : List String) : Except HostError HostTree := do
  let (srcDir, srcName) ← t.holder src
  let (destDir, destName) ← t.holder dest
  if isDots srcName || isDots destName then .error .busy
  else if t.limits.refusesName srcName then .error .nameTooLong
  else
    let src := srcDir ++ [srcName]
    let dest := destDir ++ [destName]
    if (t.find? src).isNone then .error .noEntry
    else if t.limits.refusesName destName then .error .nameTooLong
    else if src.isPrefixOf destDir then .error .invalid
    else
      let moved : HostTree :=
        { t with entries := t.entries.map fun e => (rebase src dest e.1, e.2) }
      return (moved.touch now srcDir).touch now destDir

/-- Sets the times that are given, of an entry found through links. -/
def setTimes (t : HostTree) (names : List String) (accessed modified : Option Instant) :
    Except HostError HostTree := do
  let place ← t.placeOf true names
  let entry ← t.stat true names
  return t.put place
    { entry with accessed := accessed.getD entry.accessed
                 modified := modified.getD entry.modified }

end HostTree

end MountSpace
