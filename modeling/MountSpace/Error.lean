import MountSpace.Path.Parse
import MountSpace.Capability

/-!
# Failures

Why an operation fails, as causes.  Each cause has a kind, which callers branch on, and some have
a wording; the failures of the host and of the table keep theirs to themselves.

Sessions word their failures with the address the caller gave, completed, and never with one met
while links were followed.

## Main definitions

* `HostError` — how the file system of the host refuses.
* `Error` — the causes.
* `ErrorKind`, `Error.kind` — their kinds.
* `Error.message?` — their wording.
-/

namespace MountSpace

/-- How the file system of the host refuses. -/
inductive HostError
  /-- There is no such entry. -/
  | noEntry
  /-- An entry on the way is no directory. -/
  | notDirectory
  /-- The entry is a directory. -/
  | isDirectory
  /-- The entry is there already. -/
  | exists
  /-- The entry is in use, as a directory that is named by double dots. -/
  | busy
  /-- The request makes no sense, as moving a directory into itself. -/
  | invalid
  /-- A name or a link text is too long. -/
  | nameTooLong
  /-- The directory is not empty. -/
  | notEmpty
  /-- Too many links were followed. -/
  | tooManyLinks
  deriving DecidableEq, Repr

/-- The number of the refusal. -/
def HostError.number : HostError → Nat
  | .noEntry => 2
  | .busy => 16
  | .exists => 17
  | .notDirectory => 20
  | .isDirectory => 21
  | .invalid => 22
  | .nameTooLong => 36
  | .notEmpty => 39
  | .tooManyLinks => 40

/-- Why an operation fails. -/
inductive Error
  -- addresses
  /-- The address is refused. -/
  | invalidPath (cause : PathError)
  /-- A link was to be made without a target. -/
  | missingTarget
  -- entries that are there
  /-- The entry is there already. -/
  | entryExists (path : String)
  /-- The entry is there already, as a directory. -/
  | directoryExists (path : String)
  /-- The destination is there already. -/
  | destinationExists (path : String)
  /-- A directory was to replace something else. -/
  | directoryOverOther (destination source : String)
  -- parents
  /-- The directory that is to hold the entry is missing. -/
  | parentMissing (path : String)
  /-- An entry on the way is a file. -/
  | parentIsFile (parent path : String)
  -- entries that are not there
  /-- There is no such entry. -/
  | notFound (path : String)
  /-- There is no such directory. -/
  | directoryNotFound (path : String)
  /-- There is nothing to move. -/
  | sourceNotFound (path : String)
  /-- A backend misses the directory that is to hold the entry. -/
  | holderNotFound (path : String)
  /-- The working directory was to be something other than a directory. -/
  | workingDirectoryNotDirectory (path : String)
  -- entries of the wrong kind
  /-- The entry is a directory. -/
  | isDirectory (path : String)
  /-- The entry is no regular file. -/
  | notRegular (path : String)
  /-- Something else was to replace a directory. -/
  | otherOverDirectory (destination source : String)
  /-- The directory is not empty. -/
  | notEmpty (path : String)
  /-- The directory to be replaced is not empty. -/
  | destinationNotEmpty (path : String)
  /-- The entry is no link. -/
  | notLink (path : String)
  -- links
  /-- More links were met than may be followed. -/
  | tooManyLinks (path : String)
  /-- A link at a root has no directory to start from. -/
  | linkAtRoot
  /-- A link has no target to follow. -/
  | linkWithoutTarget
  /-- The way leads through a link of the host. -/
  | linkOnTheWay (path link : String)
  -- mounts
  /-- An address has an authority and no scheme. -/
  | authorityWithoutScheme (authority path : String)
  /-- A link leads to an address with an authority and no scheme. -/
  | linkToAuthorityWithoutScheme (link target path : String)
  /-- Every store of the scheme has an authority. -/
  | authorityExpected (scheme path : String)
  /-- An address has no scheme. -/
  | schemeMissing (path : String)
  /-- No store has the scheme. -/
  | schemeUnknown (scheme path : String)
  /-- No store has the scheme and the authority. -/
  | mountUnknown (scheme authority path : String)
  /-- No store is mounted. -/
  | nothingMounted
  /-- A move was to lead to another store. -/
  | acrossMounts (source destination : String)
  -- roots
  /-- The root was to be deleted. -/
  | rootDeletion (path : String)
  /-- The root was to be moved. -/
  | rootMove (path : String)
  /-- A directory was to be moved into itself. -/
  | moveIntoItself (destination source : String)
  -- stores
  /-- A table was used without a session. -/
  | sessionMissing
  /-- Two rows would have one path. -/
  | duplicatePath
  /-- The table is missing. -/
  | tableMissing
  /-- The row to be changed is gone. -/
  | rowGone
  /-- A time lies outside the years 1 to 9999. -/
  | timeOutOfRange
  /-- The host refuses. -/
  | host (cause : HostError)
  /-- A text for the host holds a zero character. -/
  | zeroCharacter
  -- mounting
  /-- The directory to be mounted is missing. -/
  | hostMissing
  /-- What is to be mounted is no directory. -/
  | hostNotDirectory
  /-- A capability asks for an authority and has none. -/
  | authorityLacking (cause : Capability.Lacking)
  /-- Both a database and a source of sessions were given. -/
  | databaseAndSessions
  /-- A table was to be mounted without an authority. -/
  | authorityForTable
  /-- Nothing was given to be mounted. -/
  | nothingToMount
  /-- Something is mounted there. -/
  | alreadyMounted (label : String)
  /-- Not exactly one database was named. -/
  | oneDatabase
  -- streams
  /-- The stream is closed. -/
  | closedStream
  /-- The output stream is closed. -/
  | closedOutput (path : String)
  /-- The stream cannot be written. -/
  | readOnly
  /-- The stream ends too early. -/
  | endOfStream (wanted : Int) (path : String) (got : Nat)
  /-- A position before the start was asked for. -/
  | negativeSeek (offset : Int)
  /-- An unknown starting point for a position. -/
  | unknownWhence (whence : Int)
  /-- A number is too large for a stream. -/
  | numberTooLarge
  -- failures of what is plugged in
  /-- Something plugged in failed, in its own words. -/
  | failure (words : String)
  /-- A key was looked up in vain. -/
  | keyMissing
  deriving DecidableEq, Repr

/-- What callers branch on. -/
inductive ErrorKind
  | invalidPath | alreadyExists | parentNotFound | parentNotDirectory | notFound | isDirectory
  | notEmpty | notLink | cyclicLink | unsupportedAuthority | permissionDenied | mountNotFound
  | crossMount | storage | general | broken | argument | duplicatePath | tableMissing | rowGone
  | overflow | host (cause : HostError) | hostMissing | hostNotDirectory | endOfStream | unsupported
  | failure | keyMissing
  deriving DecidableEq, Repr

namespace Error

/-- The kind of a failure. -/
def kind : Error → ErrorKind
  | .invalidPath _ | .missingTarget => .invalidPath
  | .entryExists _ | .directoryExists _ | .destinationExists _ | .directoryOverOther .. =>
    .alreadyExists
  | .parentMissing _ => .parentNotFound
  | .parentIsFile .. => .parentNotDirectory
  | .notFound _ | .directoryNotFound _ | .sourceNotFound _ | .holderNotFound _
  | .workingDirectoryNotDirectory _ => .notFound
  | .isDirectory _ | .notRegular _ | .otherOverDirectory .. => .isDirectory
  | .notEmpty _ | .destinationNotEmpty _ => .notEmpty
  | .notLink _ => .notLink
  | .tooManyLinks _ => .cyclicLink
  | .linkAtRoot | .linkWithoutTarget => .broken
  | .linkOnTheWay .. => .permissionDenied
  | .authorityWithoutScheme .. | .linkToAuthorityWithoutScheme .. | .authorityExpected .. =>
    .unsupportedAuthority
  | .schemeMissing _ | .schemeUnknown .. | .mountUnknown .. | .nothingMounted => .mountNotFound
  | .acrossMounts .. => .crossMount
  | .rootDeletion _ | .rootMove _ | .moveIntoItself .. => .general
  | .sessionMissing => .storage
  | .duplicatePath => .duplicatePath
  | .tableMissing => .tableMissing
  | .rowGone => .rowGone
  | .timeOutOfRange | .numberTooLarge => .overflow
  | .host cause => .host cause
  | .hostMissing => .hostMissing
  | .hostNotDirectory => .hostNotDirectory
  | .zeroCharacter | .authorityLacking _ | .databaseAndSessions | .authorityForTable
  | .nothingToMount | .alreadyMounted _ | .oneDatabase | .closedStream | .closedOutput _
  | .negativeSeek _ | .unknownWhence _ => .argument
  | .readOnly => .unsupported
  | .endOfStream .. => .endOfStream
  | .failure _ => .failure
  | .keyMissing => .keyMissing

/-- The wording of a failure, where it has one. -/
def message? : Error → Option String
  | .invalidPath cause => some cause.message
  | .missingTarget => some "Cannot create a symbolic link to a null target"
  | .entryExists p => some ("Path already exists: " ++ p)
  | .directoryExists p => some ("Path already exists as a directory: " ++ p)
  | .destinationExists p => some ("Destination already exists: " ++ p)
  | .directoryOverOther d s =>
    some ("Cannot overwrite non-directory " ++ d ++ " with directory " ++ s)
  | .parentMissing p | .holderNotFound p => some ("Parent directory does not exist: " ++ p)
  | .parentIsFile parent p =>
    some ("Parent path is not a directory: " ++ parent ++ " (resolving " ++ p ++ ")")
  | .notFound p => some ("File not found: " ++ p)
  | .directoryNotFound p => some ("Directory not found: " ++ p)
  | .sourceNotFound p => some ("Source not found: " ++ p)
  | .workingDirectoryNotDirectory p => some ("Cannot set working directory to a file: " ++ p)
  | .isDirectory p => some ("Path is a directory, not a file: " ++ p)
  | .notRegular p => some ("Path is not a regular file: " ++ p)
  | .otherOverDirectory d s =>
    some ("Cannot overwrite directory " ++ d ++ " with non-directory " ++ s)
  | .notEmpty p => some ("Directory is not empty: " ++ p)
  | .destinationNotEmpty p => some ("Destination directory is not empty: " ++ p)
  | .notLink p => some ("Path " ++ p ++ " is not a symbolic link")
  | .tooManyLinks p => some ("Possible cyclic loop while following symbolic link " ++ p)
  | .linkAtRoot | .linkWithoutTarget => some ""
  | .linkOnTheWay p link =>
    some ("Symlinks not allowed in parent components: " ++ p ++ " contains symlink at " ++ link)
  | .authorityWithoutScheme a p =>
    some ("No file system for scheme: None (authority " ++ Text.quote a ++ "): " ++ p)
  | .linkToAuthorityWithoutScheme link target p =>
    some ("No file system for scheme: None (link " ++ link ++ " -> " ++ target ++ "): " ++ p)
  | .authorityExpected s p => some ("Scheme " ++ Text.quote s ++ " requires an authority: " ++ p)
  | .schemeMissing p => some ("Path carries no scheme: " ++ p)
  | .schemeUnknown s p => some ("No file system for scheme: " ++ s ++ ": " ++ p)
  | .mountUnknown s a p => some ("No mount for " ++ s ++ "://" ++ a ++ ": " ++ p)
  | .nothingMounted => some "No backends are mounted"
  | .acrossMounts s d => some ("Cannot rename across file systems: " ++ s ++ " -> " ++ d)
  | .rootDeletion p => some ("Cannot delete the root directory: " ++ p)
  | .rootMove p => some ("Cannot rename the root directory: " ++ p)
  | .moveIntoItself d s =>
    some ("Cannot move directory into itself: " ++ d ++ " is inside " ++ s)
  | .sessionMissing => some "DatabaseFileSystem requires a session"
  | .zeroCharacter => some "embedded null byte"
  | .authorityLacking cause => some cause.message
  | .databaseAndSessions => some "Provide engine or session_factory, not both"
  | .authorityForTable => some "A database mount requires an authority"
  | .nothingToMount => some "Provide backend, engine, or session_factory"
  | .alreadyMounted label => some ("A backend is already mounted at " ++ label)
  | .oneDatabase => some "Provide exactly one of url or engine"
  | .closedStream => some "I/O operation on closed file."
  | .closedOutput p => some ("Write to closed stream: " ++ p)
  | .readOnly => some "InputStream is read-only"
  | .endOfStream wanted p got =>
    some ("Expected " ++ toString wanted ++ " bytes from " ++ p ++ ", got " ++ toString got)
  | .negativeSeek offset => some ("negative seek value " ++ toString offset)
  | .unknownWhence whence =>
    some ("invalid whence (" ++ toString whence ++ ", should be 0, 1 or 2)")
  | .failure words => some words
  | .duplicatePath | .tableMissing | .rowGone | .timeOutOfRange | .host _ | .hostMissing
  | .hostNotDirectory | .numberTooLarge | .keyMissing => none

end Error

instance : Coe PathError Error := ⟨.invalidPath⟩

end MountSpace
