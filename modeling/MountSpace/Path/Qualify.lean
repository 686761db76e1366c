import MountSpace.Capability

/-!
# Where a session stands

A relative path is completed by the working directory, an absolute one without a location by the
default backend of the session.

## Main definitions

* `Standpoint` — a working directory and a default backend.
* `Standpoint.qualify`, `Standpoint.makeAbsolute` — the two completions.
-/

namespace MountSpace

/-- What a session adds to the paths it is given. -/
structure Standpoint where
  /-- Where relative paths start. -/
  workingDirectory : Path
  /-- The backend of absolute paths without a location. -/
  capability : Capability
  deriving DecidableEq, Repr

namespace Standpoint

/-- An absolute path without a location gets that of the default backend. -/
def qualify (at_ : Standpoint) (p : Path) : Path :=
  if p.location.isStated || !p.absolute then p else p.withLocation at_.capability.location

/-- A relative path without a location is appended to the working directory. -/
def makeAbsolute (at_ : Standpoint) (p : Path) : Path :=
  if p.absolute || p.location.isStated then p else at_.workingDirectory.join p

/-- Both completions, the working directory first. -/
def complete (at_ : Standpoint) (p : Path) : Path := at_.qualify (at_.makeAbsolute p)

/-- A path with a location is complete. -/
theorem complete_of_isStated {at_ : Standpoint} {p : Path} (h : p.location.isStated = true) :
    at_.complete p = p := by
  simp [complete, qualify, makeAbsolute, h]

end Standpoint

end MountSpace
