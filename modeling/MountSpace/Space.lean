import MountSpace.Session

/-!
# The mount space

Stores are mounted first and then used by clients, each of which has a default backend and a
working directory.  The first mount is the default of clients that name none; when it is
unmounted, the first mount by label takes its place.

## Main definitions

* `Offer` — what may be given to be mounted.
* `Space` — the mounts, the default, the bound on links and the site.
* `Space.mount`, `Space.unmount`, `Space.close` — the mounts.
* `Client`, `Space.enter`, `Space.session` — the clients.
-/

namespace MountSpace

/-- What may be given to be mounted.  Without a backend, a table is mounted in the database. -/
structure Offer where
  /-- A backend. -/
  backend : Option Backend := none
  /-- A database in which the table is made if it is missing. -/
  database : Option String := none
  /-- A database whose sessions are used as it is. -/
  sessions : Option String := none
  /-- The authority of a table. -/
  authority : Option String := none
  /-- The scheme of a table. -/
  scheme : String := "lfs"
  /-- The name of a table. -/
  table : String := ""
  /-- The label, empty for the address of the root. -/
  label : String := ""
  /-- Why the backend of a table cannot be opened, if it cannot. -/
  openFault : Option String := none
  /-- Why the backend of a table cannot be closed, if it cannot. -/
  closeFault : Option String := none
  deriving Repr

/-- A mount space. -/
structure Space where
  /-- The mounts. -/
  registry : Registry := {}
  /-- The most links that one path may lead through. -/
  maxLinks : Nat := 32
  /-- The mount of clients that name none. -/
  default : Option Mount := none
  /-- Whether the space was closed. -/
  closed : Bool := false
  /-- How many mounts were made. -/
  made : Nat := 0
  /-- What the mounts are backed by. -/
  site : Site

/-- One client: its default backend and its working directory. -/
structure Client where
  /-- The mount that completes absolute paths without a location. -/
  home : Mount
  /-- Where relative paths start. -/
  workingDirectory : Path
  deriving DecidableEq, Repr

/-- A directory of the host as a backend; it must be there. -/
def Backend.ofDirectory (site : Site) (host : String) (capability : Capability)
    (openFault closeFault : Option String) : Except Error Backend :=
  match (site.disk host).homeNode? with
  | none => .error .hostMissing
  | some .directory => .ok { storage := .disk host, capability, openFault, closeFault }
  | some _ => .error .hostNotDirectory

namespace Offer

/-- A table of a distributed store as a backend. -/
def tableBackend (o : Offer) : Except Error Backend :=
  if isBlankAuthority o.authority then .error .authorityForTable
  else do
    let capability ← (Capability.distributed o.authority o.scheme).mapError .authorityLacking
    return { storage := .table o.table, capability
             openFault := o.openFault, closeFault := o.closeFault }

/-- The backend to be mounted, its database, and whether a missing table is made. -/
def settle (o : Offer) : Except Error (Backend × Option String × Bool) :=
  match o.database, o.sessions with
  | some _, some _ => .error .databaseAndSessions
  | some database, none => do
    return (← o.backend.elim o.tableBackend .ok, some database, true)
  | none, some database => do
    return (← o.backend.elim o.tableBackend .ok, some database, false)
  | none, none =>
    match o.backend with
    | some backend => .ok (backend, none, false)
    | none => .error .nothingToMount

end Offer

namespace Space

/-- An action on the mount space; what it did before a failure stays done. -/
abbrev Change (α : Type) := Action Error Space α

/-- Work on the site of the mount space. -/
def work {α : Type} (w : Work α) : Change α := .ofFun fun s =>
  let (r, site) := w.eval s.site
  (r, { s with site })

/-- Makes the table of a backend in a database, if it is missing there. -/
def makeTable (backend : Backend) (database : String) : Change Unit :=
  match backend.storage with
  | .disk _ => pure ()
  | .table name => modify fun s =>
    let name : TableName := ⟨database, name⟩
    if (s.site.table name).rows?.isSome then s
    else { s with site := s.site.setTable name .empty }

/-- Mounts what is offered.  An address that is taken is refused. -/
def mount (o : Offer) : Change Mount := do
  let (backend, database, makesTable) ← .ofExcept o.settle
  if makesTable then database.forM (makeTable backend)
  let s ← get
  let m := Mount.make s.made backend database o.label
  if (s.registry.get? m.capability.scheme m.capability.authority).isSome then
    throw (.alreadyMounted m.label)
  .ofExcept backend.opened
  modify fun s =>
    { s with registry := s.registry.add m, default := s.default <|> some m, made := s.made + 1 }
  work (Work.report (.mounted m.label))
  return m

/-- Unmounts the store of a scheme and an authority, if there is one.  It stays unmounted when it
cannot be closed. -/
def unmount (scheme : String) (authority : Option String) : Change Unit := do
  let s ← get
  match s.registry.get? scheme authority with
  | none => pure ()
  | some m =>
    modify fun s => { s with registry := s.registry.remove scheme authority }
    .ofExcept m.backend.closed
    modify fun s =>
      if s.default.map Mount.serial = some m.serial then
        { s with default := s.registry.list.head? }
      else s
    work (Work.report (.unmounted m.label))

/-- Closes all mounts, the first time.  A mount that cannot be closed is reported. -/
def close : Change Unit := do
  let s ← get
  if !s.closed then
    modify fun s => { s with closed := true }
    s.registry.list.forM fun m =>
      match m.backend.closed with
      | .ok _ => pure ()
      | .error _ => work (Work.report (.closeFailed m.label))

/-- What an operation of a client works with. -/
def session (s : Space) (c : Client) : Session :=
  ⟨s.registry, s.maxLinks, ⟨c.workingDirectory, c.home.capability⟩⟩

/-- The mount of a new client. -/
def homeOf (s : Space) (default : PathArg) : Except Error Mount :=
  if default ≠ .missing then do
    let path ← default.read
    s.registry.lookup path path
  else
    match s.default with
    | some m => .ok m
    | none => .error .nothingMounted

/-- A new client at the root of its default backend, or in the directory that is given. -/
def enter (default workingDirectory : PathArg) : Change Client := do
  let s ← get
  let home ← .ofExcept (s.homeOf default)
  let client : Client := ⟨home, home.capability.rootPath⟩
  if workingDirectory = .missing then return client
  let directory ← work ((s.session client).changeDirectory workingDirectory)
  return { client with workingDirectory := directory }

end Space

end MountSpace
