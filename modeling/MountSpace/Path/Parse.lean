import MountSpace.Path.Basic
import MountSpace.Text.Blank
import MountSpace.Text.Quoted

/-!
# Reading paths

The grammar of an address:

    [scheme "://" [authority]] "/" name ("/" name)*
    "//" authority ["/" name ("/" name)*]
    name ("/" name)*

Blanks at the ends are dropped first.  A scheme is read only in front of two slashes; otherwise
the colon belongs to a name.

## Main definitions

* `TextFault`, `textFault?` — what makes a text unfit to be an address, whatever it says.
* `PathError` — why an address is refused.
* `Path.split` — a text cut into scheme, authority and body.
* `Path.parse` — the path a text stands for.
* `PathArg` — a path as a caller may give it.
-/

namespace MountSpace

/-- What makes a text unfit to be an address, whatever it says. -/
inductive TextFault
  /-- It holds a character with code zero. -/
  | nul
  /-- It holds another control character, neither tab, line feed nor carriage return. -/
  | control (c : Char)
  /-- It has more characters than an address may have. -/
  | tooLong
  deriving DecidableEq, Repr

/-- The most characters an address may have. -/
def maxTextLength : Nat := 4096

/-- The most characters a name may have. -/
def maxNameLength : Nat := 255

/-- The fault in words. -/
def TextFault.message : TextFault → String
  | .nul => "Path contains null bytes"
  | .control c => "Path contains control character: 0x" ++ String.ofList (Text.hex 2 c.toNat)
  | .tooLong => "Path too long (max " ++ toString maxTextLength ++ " characters)"

/-- Whether a control character is refused in addresses. -/
def isRefusedControl (c : Char) : Bool :=
  0 < c.toNat && c.toNat < 32 && c != '\t' && c != '\n' && c != '\r'

/-- The first fault of a text: a zero character anywhere counts before other controls, and those
before the length. -/
def textFault? (s : String) : Option TextFault :=
  if s.toList.any (·.toNat == 0) then some .nul
  else match s.toList.find? isRefusedControl with
    | some c => some (.control c)
    | none => if maxTextLength < s.length then some .tooLong else none

/-- Why an address is refused. -/
inductive PathError
  /-- No address was given. -/
  | missing
  /-- The text has a fault. -/
  | text (fault : TextFault) (raw : String)
  /-- A name that remains is too long. -/
  | longName (raw : String)
  /-- Nothing remains of a relative path. -/
  | empty (raw : String)
  deriving DecidableEq, Repr

/-- The refusal in words; it quotes the text as it was given. -/
def PathError.message : PathError → String
  | .missing => "Path must not be null"
  | .text fault raw => fault.message ++ ": " ++ Text.quote raw
  | .longName raw =>
    "Path segment too long (max " ++ toString maxNameLength ++ " characters): " ++ Text.quote raw
  | .empty raw => "Path normalizes to an empty path: " ++ Text.quote raw

namespace Path

/-- A character of a scheme after its first letter. -/
def isSchemeChar (c : Char) : Bool := c.isAlphanum || c == '+' || c == '-' || c == '.'

/-- The scheme in front of a text and what follows its colon.  It starts with a letter, and two
slashes must follow the colon. -/
def splitScheme (cs : List Char) : Option (List Char) × List Char :=
  match cs.head?, cs.dropWhile isSchemeChar with
  | some c, ':' :: '/' :: '/' :: rest =>
    if c.isAlpha then (some (cs.takeWhile isSchemeChar), '/' :: '/' :: rest) else (none, cs)
  | _, _ => (none, cs)

/-- The authority after two slashes and what follows it. -/
def splitAuthority : List Char → Option (List Char) × List Char
  | '/' :: '/' :: rest => (some (rest.takeWhile (· != '/')), rest.dropWhile (· != '/'))
  | cs => (none, cs)

/-- The pieces of a text between slashes. -/
def splitNames (cs : List Char) : List String := (cs.splitOn '/').map String.ofList

/-- The parts of an address. -/
structure Parts where
  /-- The scheme as written. -/
  scheme : Option (List Char)
  /-- The authority as written; it may be empty. -/
  authority : Option (List Char)
  /-- All the rest. -/
  body : List Char
  deriving DecidableEq, Repr

/-- A text cut into scheme, authority and body. -/
def split (cs : List Char) : Parts :=
  let (scheme, rest) := splitScheme cs
  let (authority, body) := splitAuthority rest
  ⟨scheme, authority, body⟩

/-- Whether the parts describe a path from the root: the body starts with a slash, or a scheme or
an authority is written. -/
def Parts.isAbsolute (parts : Parts) : Bool :=
  parts.body.head? == some '/' || parts.scheme.isSome || parts.authority.isSome

/-- The location the parts describe: schemes are lower case, and an empty authority is none. -/
def Parts.location (parts : Parts) : Location where
  scheme := parts.scheme.map fun cs => String.ofList (cs.map Char.toLower)
  authority := match parts.authority with
    | none | some [] => none
    | some cs => some (String.ofList cs)

/-- The path the parts describe. -/
def Parts.toPath (parts : Parts) : Path where
  location := parts.location
  segments := collapse parts.isAbsolute (splitNames parts.body)
  absolute := parts.isAbsolute

/-- The path a text stands for. -/
def parse (raw : String) : Except PathError Path :=
  match textFault? raw with
  | some fault => .error (.text fault raw)
  | none =>
    let path := (split (Text.trim raw.toList)).toPath
    if path.segments.any (maxNameLength < ·.length) then .error (.longName raw)
    else if path.segments.isEmpty && !path.absolute then .error (.empty raw)
    else .ok path

end Path

/-- A path as a caller may give it. -/
inductive PathArg
  /-- Nothing was given. -/
  | missing
  /-- An address to be read. -/
  | text (raw : String)
  /-- A path, taken as it is. -/
  | path (p : Path)
  deriving DecidableEq, Repr

/-- The path a caller means. -/
def PathArg.toPath : PathArg → Except PathError Path
  | .missing => .error .missing
  | .text raw => Path.parse raw
  | .path p => .ok p

end MountSpace
