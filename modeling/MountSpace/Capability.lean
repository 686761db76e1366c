import MountSpace.Path.Basic
import MountSpace.Text.Quoted

/-!
# Capabilities

How a backend is addressed and what it honours.  Sessions and the resolver consult this record
and never ask what kind of backend they talk to.

## Main definitions

* `Capability` — the record; a backend that asks for an authority has one of its own.
* `Capability.make` — the checked constructor.
* `Capability.onDisk`, `Capability.distributed` — the two usual capabilities.
-/

namespace MountSpace

/-- Whether an authority is left out or empty. -/
def isBlankAuthority (authority : Option String) : Bool := authority.getD "" == ""

/-- How a backend is addressed and what it honours. -/
structure Capability where
  /-- The scheme given to absolute paths that carry none. -/
  scheme : String
  /-- The authority given along with it. -/
  authority : Option String := none
  /-- Paths of this scheme must name an authority. -/
  requiresAuthority : Bool := false
  /-- Times that are set are kept; otherwise they are ignored without an error. -/
  honorsTimes : Bool := false
  /-- A change of the working directory stores the path that its links lead to. -/
  followsWorkingDirectory : Bool := false
  /-- A backend that asks for an authority has one. -/
  authority_of_requires : requiresAuthority = true → isBlankAuthority authority = false := by
    intro h; cases h
  deriving DecidableEq, Repr

namespace Capability

/-- Where the backend is mounted. -/
def location (c : Capability) : Location := ⟨some c.scheme, c.authority⟩

/-- The root of the backend. -/
def rootPath (c : Capability) : Path := .root c.location

/-- A capability asked for an authority without having one; it names the scheme. -/
structure Lacking where
  /-- The scheme of the refused capability. -/
  scheme : String
  deriving DecidableEq, Repr

/-- The refusal in words. -/
def Lacking.message (e : Lacking) : String :=
  "Backend scheme " ++ Text.quote e.scheme ++
    " requires an authority but no default authority was given"

/-- A capability with the given entries, unless it asks for an authority and has none. -/
def make (scheme : String) (authority : Option String)
    (requiresAuthority honorsTimes followsWorkingDirectory : Bool) : Except Lacking Capability :=
  if h : requiresAuthority = true → isBlankAuthority authority = false then
    .ok { scheme, authority, requiresAuthority, honorsTimes, followsWorkingDirectory,
          authority_of_requires := h }
  else .error ⟨scheme⟩

/-- The capability of a directory of the host: no authority, times and links left alone. -/
def onDisk (scheme : String) : Capability := { scheme }

/-- The capability of a distributed store: addressed by scheme and authority, keeping times and
following links of the working directory. -/
def distributed (authority : Option String) (scheme : String) : Except Lacking Capability :=
  make scheme authority true true true

/-- A capability is refused exactly when it asks for an authority and has none. -/
theorem make_eq_error_iff {s : String} {a : Option String} {r h f : Bool} {e : Lacking} :
    make s a r h f = .error e ↔ (r = true ∧ isBlankAuthority a = true) ∧ e = ⟨s⟩ := by
  unfold make
  split
  · rename_i hc
    constructor
    · intro he; cases he
    · rintro ⟨⟨hr, hb⟩, -⟩
      rw [hc hr] at hb
      cases hb
  · rename_i hc
    constructor
    · intro he
      cases he
      exact ⟨by cases r <;> cases hb : isBlankAuthority a <;> simp [hb] at hc ⊢, rfl⟩
    · rintro ⟨-, rfl⟩
      rfl

end Capability

end MountSpace
