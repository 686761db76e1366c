import MountSpace.Error
import MountSpace.Time.Calendar

/-!
# Entries as they are reported

## Main definitions

* `Bytes` — contents.
* `Kind` — file, directory or link.
* `Status` — what is reported of an entry.
-/

namespace MountSpace

/-- The contents of a file. -/
abbrev Bytes := List UInt8

/-- The kind of an entry. -/
inductive Kind
  | file | directory | link
  deriving DecidableEq, Repr, Inhabited

/-- What is reported of an entry at one moment. -/
structure Status where
  /-- Where the entry is. -/
  path : Path
  /-- Its kind. -/
  kind : Kind
  /-- The length of its content; 0 for anything but a file. -/
  size : Nat := 0
  /-- When it was last read, as far as that is known. -/
  accessed : Option Instant := none
  /-- When it was last changed, as far as that is known. -/
  modified : Option Instant := none
  /-- Where a link leads. -/
  target : Option Path := none
  deriving DecidableEq, Repr

/-- Reads an address that a backend was given. -/
def Path.read (raw : String) : Except Error Path :=
  (Path.parse raw).mapError .invalidPath

/-- The path a caller means, or the failure to name one. -/
def PathArg.read (arg : PathArg) : Except Error Path :=
  arg.toPath.mapError .invalidPath

end MountSpace
