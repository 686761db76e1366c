import MountSpace.Resolve
import MountSpace.Stream.Input
import MountSpace.Stream.Output

/-!
# Sessions

The operations a client performs.  Each completes the paths it is given, resolves them, and hands
the resolved path to the backend that owns it.  Whether a link in the last place is followed is
fixed for each operation:

* followed by `openFile`, `createFile`, `appendFile`, `setTimes`, `list`, `makeDirectory`,
  `status`, `exists_`, `isFile`, `isDirectory`, `resolvePath` and `changeDirectory`;
* not followed by `delete`, `move` (either end), `linkStatus`, `linkTarget` and `makeLink` (the
  link).

## Main definitions

* `Session` — the mounts, the bound on links and the standpoint.
* `Session.qualified`, `Session.resolve`, `Session.require` — from a given path to its entry.
* `Session.prepareParent` — the directory of a new entry.
* `Session.qualifyTarget` — where a reported link leads.
* `Sink` — where the bytes of an output stream go.
-/

namespace MountSpace

/-- What one operation of a client works with. -/
structure Session where
  /-- The mounts. -/
  registry : Registry
  /-- The most links that one path may lead through. -/
  maxLinks : Nat
  /-- What completes the paths that are given. -/
  standpoint : Standpoint

/-- How the bytes of an output stream reach the file. -/
inductive SinkMode
  /-- They take the place of the content. -/
  | replace
  /-- They are added to the content. -/
  | extend
  deriving DecidableEq, Repr

/-- Where the bytes of an output stream go; it is settled when the stream is made. -/
structure Sink where
  /-- The mount. -/
  mount : Mount
  /-- The path in the mount. -/
  path : String
  /-- How the bytes reach the file. -/
  mode : SinkMode
  deriving DecidableEq, Repr

/-- Hands bytes over to the backend. -/
def Sink.commit (sink : Sink) (data : Bytes) : Work Unit :=
  sink.mount.within fun c =>
    match sink.mode with
    | .replace => c.write sink.path data true
    | .extend => c.append sink.path data

namespace Session

/-! ## From a given path to its entry -/

/-- The complete path that a caller means. -/
def qualified (s : Session) (arg : PathArg) : Except Error Path :=
  s.standpoint.complete <$> arg.read

/-- The mounts and what they hold in a given state of the site. -/
def atlas (s : Session) (site : Site) : Atlas := ⟨s.registry, fun m path => m.statusIn site path⟩

/-- Resolves a path as it stands, and reports the links that are followed. -/
def resolveWithin (s : Session) (bound : Nat) (path : Path) (follow : Bool) : Work Resolution := do
  let trace := (s.atlas (← get)).resolve s.standpoint bound path follow
  trace.hops.forM fun hop => Work.report (.followed hop.link hop.onward)
  .ofExcept trace.outcome

/-- Resolves a path. -/
def resolve (s : Session) (path : Path) (follow : Bool) : Work Resolution :=
  s.resolveWithin s.maxLinks path follow

/-- Resolves a path to an entry that is there. -/
def require (s : Session) (path : Path) (follow : Bool) : Work (Resolution × Status) := do
  let r ← s.resolve path follow
  match r.status with
  | some status => return (r, status)
  | none => throw (.notFound path.text)

/-- Makes the directories `names` below `dir`, one in the other, as far as they are missing. -/
def makeDirectories (c : Connection) (dir : Path) : List String → Work Unit
  | [] => pure ()
  | name :: rest => do
    let here := dir.child [name]
    if (← c.status here.localText).isNone then c.makeDirectory here.localText
    makeDirectories c here rest

/-- Makes the directories above a resolved path, as far as they are missing. -/
def makeParents (r : Resolution) : Work Unit :=
  match r.path.parent? with
  | none => pure ()
  | some parent =>
    r.mount.within fun c => makeDirectories c (.root parent.location) parent.segments

/-- Sees to it that a new entry has a directory; a missing one is made when that is allowed. -/
def prepareParent (r : Resolution) (asked : Path) (createParent : Bool) : Work Unit :=
  if r.parentExists then pure ()
  else if createParent then makeParents r
  else throw (.parentMissing asked.text)

/-- Whether a resolved directory holds anything. -/
def hasChildren (r : Resolution) : Work Bool :=
  r.mount.within fun c => return !(← c.list r.path.localText).isEmpty

/-- Where the link at `link` leads.  A target that says something of its location is reported as
it is; any other one is completed from the place of the link. -/
def qualifyTarget (link target : Path) : Except Error Path :=
  if target.location.isStated then .ok target
  else if !target.absolute then
    match link.parent? with
    | some dir => .ok (dir.join target)
    | none => .error .linkAtRoot
  else .ok (target.withLocation link.location)

/-- The status of an entry as reported under its complete path. -/
def located (status : Status) (path : Path) : Except Error Status :=
  match status.kind, status.target with
  | .link, some target => do
    return { status with path, target := some (← qualifyTarget path target) }
  | _, _ => .ok { status with path }

/-! ## Links -/

/-- Makes a link.  Its target need not be there. -/
def makeLink (s : Session) (target link : PathArg) (createParent : Bool) : Work Unit := do
  if target = .missing then throw .missingTarget
  let target ← .ofExcept target.read
  let path ← .ofExcept (s.qualified link)
  let r ← s.resolve path false
  if r.status.isSome then throw (.entryExists path.text)
  prepareParent r path createParent
  let c := r.mount.capability
  let target :=
    if c.requiresAuthority && target.absolute && !target.location.isStated then
      target.withLocation c.location
    else target
  r.mount.within fun c => c.makeLink r.path.localText target.text
  Work.report (.linked r.path target)

/-- The target of a link as it is stored. -/
def linkTarget (s : Session) (arg : PathArg) : Work Path := do
  let path ← .ofExcept (s.qualified arg)
  let (_, status) ← s.require path false
  match status.kind, status.target with
  | .link, some target => return target
  | _, _ => throw (.notLink path.text)

/-! ## Status -/

/-- The status of an entry, found through links. -/
def status (s : Session) (arg : PathArg) : Work Status := do
  let path ← .ofExcept (s.qualified arg)
  let (r, status) ← s.require path true
  .ofExcept (located status r.path)

/-- The status of an entry itself; a link is reported with its target. -/
def linkStatus (s : Session) (arg : PathArg) : Work Status := do
  let path ← .ofExcept (s.qualified arg)
  let (r, status) ← s.require path false
  .ofExcept (located status r.path)

/-- Whether there is an entry, found through links. -/
def exists_ (s : Session) (arg : PathArg) : Work Bool := do
  let found ← Action.attempt do
    let path ← .ofExcept (s.qualified arg)
    s.resolve path true
  match found with
  | .ok r => return r.status.isSome
  | .error e => if e.kind = .parentNotDirectory then return false else throw e

/-- Whether there is an entry of one kind, found through links. -/
def hasKind (s : Session) (kind : Kind) (arg : PathArg) : Work Bool := do
  match ← (s.status arg).attempt with
  | .ok status => return status.kind = kind
  | .error e =>
    if e.kind = .notFound ∨ e.kind = .parentNotDirectory then return false else throw e

/-- Whether there is a file, found through links. -/
def isFile (s : Session) (arg : PathArg) : Work Bool := s.hasKind .file arg

/-- Whether there is a directory, found through links. -/
def isDirectory (s : Session) (arg : PathArg) : Work Bool := s.hasKind .directory arg

/-- The complete path of the entry that a path leads to. -/
def resolvePath (s : Session) (arg : PathArg) : Work Path := do
  let path ← .ofExcept (s.qualified arg)
  return (← s.require path true).1.path

/-- The entries in a directory by name, links among them not followed, or the one entry that is no
directory. -/
def list (s : Session) (arg : PathArg) : Work (List Status) := do
  let path ← .ofExcept (s.qualified arg)
  let (r, status) ← s.require path true
  if status.kind ≠ .directory then return [← .ofExcept (located status r.path)]
  let entries ← r.mount.within fun c => c.list r.path.localText
  let found ← .ofExcept (entries.mapM fun e => located e (r.path.child [e.path.name]))
  return found.mergeSort fun a b => a.path.name ≤ b.path.name

/-! ## Content -/

/-- Opens a file for reading: a snapshot of its content. -/
def openFile (s : Session) (arg : PathArg) : Work InputStream := do
  let path ← .ofExcept (s.qualified arg)
  let (r, status) ← s.require path true
  if status.kind = .directory then throw (.isDirectory path.text)
  let data ← r.mount.within fun c => c.content r.path.localText
  return { path, data }

/-- Makes an empty file, or empties one that may be overwritten, and opens it for writing. -/
def createFile (s : Session) (arg : PathArg) (overwrite createParent : Bool) :
    Work (OutputStream × Sink) := do
  let path ← .ofExcept (s.qualified arg)
  let r ← s.resolve path true
  match r.status with
  | some status =>
    if status.kind = .directory then throw (.directoryExists path.text)
    if !overwrite then throw (.entryExists path.text)
  | none => prepareParent r path createParent
  r.mount.within fun c => c.write r.path.localText [] overwrite
  return ({ path }, ⟨r.mount, r.path.localText, .replace⟩)

/-- Opens a file for writing at its end. -/
def appendFile (s : Session) (arg : PathArg) : Work (OutputStream × Sink) := do
  let path ← .ofExcept (s.qualified arg)
  let (r, status) ← s.require path true
  if status.kind = .directory then throw (.isDirectory path.text)
  return ({ path }, ⟨r.mount, r.path.localText, .extend⟩)

/-! ## Names -/

/-- Makes a directory. -/
def makeDirectory (s : Session) (arg : PathArg) (createParent : Bool) : Work Unit := do
  let path ← .ofExcept (s.qualified arg)
  let r ← s.resolve path true
  match r.status with
  | some status =>
    if createParent && status.kind = .directory then return
    throw (.entryExists path.text)
  | none =>
    prepareParent r path createParent
    r.mount.within fun c => c.makeDirectory r.path.localText

/-- Deletes an entry, and says whether there was one.  A link is deleted, never what it leads
to. -/
def delete (s : Session) (arg : PathArg) (recursive : Bool) : Work Bool := do
  let path ← .ofExcept (s.qualified arg)
  match ← (s.resolve path false).attempt with
  | .error e => if e.kind = .parentNotDirectory then return false else throw e
  | .ok r =>
    match r.status with
    | none => return false
    | some status =>
      if r.path.isRoot then throw (.rootDeletion path.text)
      if status.kind = .directory && !recursive then
        if ← hasChildren r then throw (.notEmpty path.text)
      r.mount.within fun c => c.delete r.path.localText recursive

/-- What speaks against putting an entry of the kind `moved` in the place of an entry. -/
def checkReplacement (src dst : Path) (moved : Kind) (dest : Resolution) (old : Status)
    (overwrite : Bool) : Work Unit := do
  if !overwrite then throw (.destinationExists dst.text)
  if old.kind = .directory then
    if moved ≠ .directory then throw (.otherOverDirectory dst.text src.text)
    if ← hasChildren dest then throw (.destinationNotEmpty dst.text)
  else if moved = .directory then throw (.directoryOverOther dst.text src.text)

/-- Moves an entry within its mount.  Links on the way are followed; one in the last place is
itself moved or replaced. -/
def move (s : Session) (srcArg dstArg : PathArg) (overwrite : Bool) : Work Unit := do
  let src ← .ofExcept (s.qualified srcArg)
  let dst ← .ofExcept (s.qualified dstArg)
  let (source, status) ← s.require src false
  let dest ← s.resolve dst false
  if source.mount.location ≠ dest.mount.location then throw (.acrossMounts src.text dst.text)
  if source.path.isRoot then throw (.rootMove src.text)
  if source.path = dest.path then return
  if source.path.isAncestorOf dest.path then throw (.moveIntoItself dst.text src.text)
  match dest.status with
  | some old => checkReplacement src dst status.kind dest old overwrite
  | none => if !dest.parentExists then throw (.parentMissing dst.text)
  source.mount.within fun c => c.move source.path.localText dest.path.localText overwrite

/-- Sets the times that are given, on a store that keeps them. -/
def setTimes (s : Session) (arg : PathArg) (accessed modified : Option Moment) : Work Unit := do
  let path ← .ofExcept (s.qualified arg)
  let (r, _) ← s.require path true
  if r.mount.capability.honorsTimes then
    r.mount.within fun c => c.setTimes r.path.localText accessed modified
  else Work.report (.timesIgnored path)

/-! ## The working directory -/

/-- The working directory after a change.  A backend that follows links stores the path they lead
to, any other one the path that was given. -/
def changeDirectory (s : Session) (arg : PathArg) : Work Path := do
  let path ← .ofExcept (s.qualified arg)
  let (r, status) ← s.require path true
  if status.kind ≠ .directory then throw (.workingDirectoryNotDirectory path.text)
  let owner ← .ofExcept (s.registry.lookup path path)
  return if owner.capability.followsWorkingDirectory then r.path else path

end Session

end MountSpace
