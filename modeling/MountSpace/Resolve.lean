import MountSpace.Path.Qualify
import MountSpace.Registry

/-!
# Resolving paths

A path is walked name by name in the store that owns it.  When a link has to be followed, its
target takes the place of the names walked so far, and the walk begins again at the root of the
store that owns the new path.  Links before the last name are always followed, one in the last
place on demand.  A bound limits the number of links.

What a store holds is given by a function, so that resolving only reads.

## Main definitions

* `Atlas` — the mounts and what they hold.
* `Resolution` — where a path ends.
* `Atlas.leg` — one walk, up to its end or the first link that has to be followed.
* `Atlas.onward` — the path on which a link sends the walk.
* `Atlas.trace`, `Atlas.resolve` — all walks, with the links that were followed.
-/

namespace MountSpace

/-- The mounts and what they hold. -/
structure Atlas where
  /-- The mounts. -/
  registry : Registry
  /-- What a mount reports of the entry at a path. -/
  status : Mount → String → Except Error (Option Status)

/-- Where a path ends. -/
structure Resolution where
  /-- The path without links. -/
  path : Path
  /-- The mount that owns it. -/
  mount : Mount
  /-- The entry there, if there is one. -/
  status : Option Status
  /-- Whether every name before the last is there. -/
  parentExists : Bool
  deriving DecidableEq, Repr

/-- How one walk ends. -/
inductive Leg
  /-- It comes to the end of the path, or to a name that is not there. -/
  | arrived (r : Resolution)
  /-- It meets a link that has to be followed, with the names `rest` still to go. -/
  | met (link target : Path) (rest : List String)
  deriving DecidableEq, Repr

/-- A link that was followed, and the path on which it sent the walk. -/
structure Hop where
  /-- The link. -/
  link : Path
  /-- The path of the next walk. -/
  onward : Path
  deriving DecidableEq, Repr

/-- The links that were followed, and the outcome. -/
structure Trace where
  /-- The links, in order. -/
  hops : List Hop
  /-- The outcome. -/
  outcome : Except Error Resolution

namespace Atlas

/-- Walks on from `dir` along `names`, the last part of `path`. -/
def advance (a : Atlas) (mount : Mount) (path asked : Path) (follow : Bool)
    (dir : Path) : List String → Except Error Leg
  | [] => .ok (.arrived ⟨path, mount, none, true⟩)
  | name :: rest => do
    let here := dir.child [name]
    match ← a.status mount here.localText with
    | none => return .arrived ⟨path, mount, none, rest.isEmpty⟩
    | some status =>
      if status.kind = .link ∧ (follow ∨ rest ≠ []) then
        match status.target with
        | some target => return .met here target rest
        | none => throw .linkWithoutTarget
      else if rest = [] then return .arrived ⟨path, mount, some status, true⟩
      else if status.kind = .file then throw (.parentIsFile here.text asked.text)
      else a.advance mount path asked follow here rest

/-- One walk in one mount. -/
def walk (a : Atlas) (mount : Mount) (path asked : Path) (follow : Bool) : Except Error Leg :=
  if path.isRoot then do
    return .arrived ⟨path, mount, ← a.status mount "/", true⟩
  else a.advance mount path asked follow (.root path.location) path.segments

/-- The path on which a link sends the walk: a relative target starts at the directory of the
link, an absolute one without a location stays in the mount of the link. -/
def onward (mount : Mount) (link target : Path) (rest : List String) (asked : Path) :
    Except Error Path :=
  if target.location.authority.isSome ∧ target.location.scheme = none then
    .error (.linkToAuthorityWithoutScheme link.text target.text asked.text)
  else if !target.absolute then
    match link.parent? with
    | some dir => .ok ((dir.join target).child rest)
    | none => .error .linkAtRoot
  else if !target.location.isStated then
    .ok ((target.withLocation mount.location).child rest)
  else .ok (target.child rest)

/-- One walk from the path `current`, in the mount that owns it, with the path on which a link
sends it. -/
def leg (a : Atlas) (asked : Path) (follow : Bool) (current : Path) :
    Except Error (Mount × Leg) := do
  let mount ← a.registry.lookup current asked
  return (mount, ← a.walk mount current asked follow)

/-- All walks from the path `current`, following at most `bound` links.  A link is counted before
its target is looked at. -/
def trace (a : Atlas) (asked : Path) (follow : Bool) : Nat → Path → Trace
  | bound, current =>
    match a.leg asked follow current with
    | .error e => ⟨[], .error e⟩
    | .ok (_, .arrived r) => ⟨[], .ok r⟩
    | .ok (mount, .met link target rest) =>
      match bound with
      | 0 => ⟨[], .error (.tooManyLinks asked.text)⟩
      | bound + 1 =>
        match onward mount link target rest asked with
        | .error e => ⟨[], .error e⟩
        | .ok next =>
          let rest := a.trace asked follow bound next
          ⟨⟨link, next⟩ :: rest.hops, rest.outcome⟩

/-- The path that is walked: one without a location lies in the default backend. -/
def start (at_ : Standpoint) (path : Path) : Path :=
  if path.location.isStated then path else path.withLocation at_.capability.location

/-- Resolves a path as seen from a standpoint, following at most `bound` links. -/
def resolve (a : Atlas) (at_ : Standpoint) (bound : Nat) (path : Path) (follow : Bool) : Trace :=
  a.trace (start at_ path) follow bound (start at_ path)

end Atlas

end MountSpace
