import MountSpace.Status
import MountSpace.Action

/-!
# Input streams

A snapshot of a file's content, read from a position that may also lie beyond the end.

## Main definitions

* `InputStream` — content, position and whether the stream is closed.
* `InputStream.read`, `InputStream.readLine`, `InputStream.readLines`, `InputStream.readFully` —
  reading from the position on.
* `InputStream.seek`, `InputStream.tell` — the position.
* `InputStream.close` — after it, nothing can be read.
-/

namespace MountSpace

/-- A snapshot of a file's content with a position. -/
structure InputStream where
  /-- The path that was opened. -/
  path : Path
  /-- The content. -/
  data : Bytes
  /-- The position; it may lie beyond the end. -/
  position : Nat := 0
  /-- Whether the stream is closed. -/
  closed : Bool := false
  deriving DecidableEq, Repr

namespace InputStream

/-- An action on a stream. -/
abbrev Reading (α : Type) := Action Error InputStream α

/-- What lies behind the position. -/
def rest (s : InputStream) : Bytes := s.data.drop s.position

/-- Fails for a number that does not lie between `-limit` and `limit`, the latter excluded. -/
def checkLimit (limit n : Int) : Except Error Unit :=
  if -limit ≤ n ∧ n < limit then .ok () else .error .numberTooLarge

/-- Fails for a size or a position that does not fit in 64 bits with a sign. -/
def checkNumber (n : Int) : Except Error Unit := checkLimit 0x8000000000000000 n

/-- Fails for a starting point that does not fit in 32 bits with a sign. -/
def checkWhence (n : Int) : Except Error Unit := checkLimit 0x80000000 n

/-- The stream, unless it is closed. -/
def getOpen : Reading InputStream := do
  let s ← get
  if s.closed then throw .closedStream
  return s

/-- Moves the position behind some bytes and gives them back. -/
def take (bytes : Bytes) : Reading Bytes := do
  modify fun s => { s with position := s.position + bytes.length }
  return bytes

/-- The first bytes of a list, at most `size`; all of them when `size` is negative. -/
def atMost (size : Int) (bytes : Bytes) : Bytes :=
  if size < 0 then bytes else bytes.take size.toNat

/-- Reads at most `size` bytes, or all that is left when `size` is negative. -/
def read (size : Int) : Reading Bytes := do
  .ofExcept (checkNumber size)
  take (atMost size (← getOpen).rest)

/-- The bytes up to the first line feed, with it. -/
def firstLine : Bytes → Bytes
  | [] => []
  | b :: bytes => if b = 10 then [b] else b :: firstLine bytes

/-- Reads to the end of the line, but at most `size` bytes unless `size` is negative. -/
def readLine (size : Int) : Reading Bytes := do
  .ofExcept (checkNumber size)
  take (firstLine (atMost size (← getOpen).rest))

/-- The lines of a list of bytes, each with its line feed. -/
def lines : Bytes → List Bytes
  | [] => []
  | b :: bytes =>
    if b = 10 then [b] :: lines bytes
    else
      match bytes, lines bytes with
      | [], _ => [[b]]
      | _, [] => [[b]]
      | _, line :: more => (b :: line) :: more

/-- Reads all lines that are left. -/
def readLines : Reading (List Bytes) := do
  let bytes := (← getOpen).rest
  let _ ← take bytes
  return lines bytes

/-- Reads exactly `size` bytes.  When fewer are left, they are read all the same. -/
def readFully (size : Int) : Reading Bytes := do
  let bytes ← read size
  if (bytes.length : Int) < size then
    throw (.endOfStream size (← get).path.text bytes.length)
  return bytes

/-- Moves the position to an offset from the start (0), from the position (1) or from the end
(2).  From the last two a place before the start counts as the start. -/
def seek (offset whence : Int) : Reading Nat := do
  .ofExcept (checkNumber offset)
  .ofExcept (checkWhence whence)
  let s ← getOpen
  if whence = 0 ∧ offset < 0 then throw (.negativeSeek offset)
  let origin ←
    if whence = 0 then pure 0
    else if whence = 1 then pure s.position
    else if whence = 2 then pure s.data.length
    else throw (.unknownWhence whence)
  .ofExcept (checkNumber (origin + offset))
  let position := (origin + offset).toNat
  set { s with position }
  return position

/-- The position. -/
def tell : Reading Nat := return (← getOpen).position

/-- The whole content, whatever the position. -/
def content : Reading Bytes := return (← getOpen).data

/-- Whether the stream can be read. -/
def isReadable : Reading Bool := do
  let _ ← getOpen
  return true

/-- Whether the position can be moved. -/
def isSeekable : Reading Bool := do
  let _ ← getOpen
  return true

/-- Whether the stream can be written: never. -/
def isWritable : Reading Bool := return false

/-- Refuses to write. -/
def write (_ : Bytes) : Reading Nat := throw .readOnly

/-- Closes the stream.  It may be closed before. -/
def close : Reading Unit := modify fun s => { s with closed := true }

end InputStream

end MountSpace
