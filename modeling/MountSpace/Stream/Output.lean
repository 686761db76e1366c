import MountSpace.Status
import MountSpace.Action

/-!
# Output streams

Bytes are kept until the stream is closed, and are then handed over all at once.  A stream is
closed once and for all, also when handing over fails.

## Main definitions

* `OutputStream` — the bytes kept so far and whether the stream is closed.
* `OutputStream.write` — takes bytes.
* `OutputStream.close` — hands them over.
* `OutputStream.discard` — closes without handing them over.
* `OutputStream.block` — writes some chunks and closes, or fails and discards.
-/

namespace MountSpace

/-- The bytes kept for a file, and whether the stream is closed. -/
structure OutputStream where
  /-- The path that was asked for. -/
  path : Path
  /-- The bytes kept so far. -/
  buffer : Bytes := []
  /-- Whether the stream is closed. -/
  closed : Bool := false
  deriving DecidableEq, Repr

namespace OutputStream

variable {σ : Type}

/-- An action on a stream beside a state `σ`, into which the bytes are handed over. -/
abbrev Writing (σ α : Type) := Action Error (OutputStream × σ) α

/-- How the bytes are handed over. -/
abbrev Commit (σ : Type) := Bytes → Action Error σ Unit

/-- Takes bytes and says how many. -/
def write (data : Bytes) : Writing σ Nat := do
  let (s, _) ← get
  if s.closed then throw (.closedOutput s.path.text)
  modify fun (s, rest) => ({ s with buffer := s.buffer ++ data }, rest)
  return data.length

/-- Closes without handing over. -/
def discard : Writing σ Unit :=
  modify fun (s, rest) => ({ s with closed := true, buffer := [] }, rest)

/-- Closes and hands the bytes over.  On a closed stream nothing happens. -/
def close (commit : Commit σ) : Writing σ Unit := do
  let (s, _) ← get
  if !s.closed then
    modify fun (s, rest) => ({ s with closed := true }, rest)
    .ofFun fun (s, rest) =>
      let (r, rest) := (commit s.buffer).eval rest
      (r, (s, rest))
    modify fun (s, rest) => ({ s with buffer := [] }, rest)

/-- Writes chunks one after the other. -/
def writeAll : List Bytes → Writing σ (List Nat)
  | [] => return []
  | data :: more => do
    let n ← write data
    return n :: (← writeAll more)

/-- Runs `body` and then closes the stream.  When the body fails, the stream is discarded and the
failure passed on. -/
def block {α : Type} (commit : Commit σ) (body : Writing σ α) : Writing σ α := do
  match ← body.attempt with
  | .ok a =>
    close commit
    return a
  | .error e =>
    discard
    throw e

end OutputStream

end MountSpace
