/-!
# Locations

What an address says about the store it belongs to: a scheme, an authority, both or neither.

## Main definitions

* `Location` — a scheme and an authority, each of which may be left out.
* `Location.isStated`, `Location.isFull`, `Location.isPartial` — how much of it is there.
* `Location.text` — the part of an address in front of its path.
-/

namespace MountSpace

/-- The store an address names: a scheme and an authority, each of which may be left out. -/
structure Location where
  /-- The kind of store, such as `file`. -/
  scheme : Option String := none
  /-- The store among those of one scheme, such as `node:8020`. -/
  authority : Option String := none
  deriving DecidableEq, Repr, Inhabited

namespace Location

/-- Says something: a scheme or an authority is there. -/
def isStated (l : Location) : Bool := l.scheme.isSome || l.authority.isSome

/-- Says everything: both a scheme and an authority are there. -/
def isFull (l : Location) : Bool := l.scheme.isSome && l.authority.isSome

/-- Says one of the two and not the other. -/
def isPartial (l : Location) : Bool := l.scheme.isSome != l.authority.isSome

/-- What stands in front of the path in an address.  An authority without a scheme keeps its two
slashes; a scheme is followed by two slashes even when no authority comes after them. -/
def text (l : Location) : String :=
  match l.scheme, l.authority with
  | some s, a => s ++ "://" ++ a.getD ""
  | none, some a => "//" ++ a
  | none, none => ""

/-- The empty location is written as nothing. -/
@[simp] theorem text_empty : text {} = "" := rfl

/-- A location says nothing exactly when it is the empty one. -/
theorem isStated_eq_false_iff {l : Location} : l.isStated = false ↔ l = {} := by
  cases l with | mk s a => cases s <;> cases a <;> simp [isStated]

/-- A location that says everything or only a part says something, and nothing else does. -/
theorem isStated_eq (l : Location) : l.isStated = (l.isFull || l.isPartial) := by
  cases l with | mk s a => cases s <;> cases a <;> rfl

end Location

end MountSpace
