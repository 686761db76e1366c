import MountSpace.Mount
import MountSpace.Text.LowerCase

/-!
# The registry of mounts

The mounted stores, each under its own scheme and authority.  The owner of a path is the mount
whose scheme and authority the path names, letter for letter; a path that names too little or
something unknown has none.

## Main definitions

* `Registry` — the mounts; no two have one address.
* `Registry.add`, `Registry.remove`, `Registry.get?` — by scheme and authority.
* `Registry.list` — by label.
* `Registry.lookup` — the owner of a path.
-/

namespace MountSpace

/-- The mounts in the order in which their addresses were first taken.  No two have one address. -/
structure Registry where
  /-- The mounts. -/
  mounts : List Mount := []
  /-- No two mounts have one address. -/
  nodup_location : (mounts.map Mount.location).Nodup := by exact List.nodup_nil

namespace Registry

/-- The mount at an address. -/
def at? (r : Registry) (l : Location) : Option Mount := r.mounts.find? (·.location == l)

/-- Adds a mount, in the place of one with the same address. -/
def add (r : Registry) (m : Mount) : Registry :=
  if h : m.location ∈ r.mounts.map Mount.location then
    { mounts := r.mounts.map fun old => if old.location = m.location then m else old
      nodup_location := by
        have same : (r.mounts.map fun old => if old.location = m.location then m else old).map
            Mount.location = r.mounts.map Mount.location := by
          rw [List.map_map]
          refine List.map_congr_left fun old _ => ?_
          by_cases ho : old.location = m.location <;> simp [ho]
        rw [same]
        exact r.nodup_location }
  else
    { mounts := r.mounts ++ [m]
      nodup_location := by
        rw [List.map_append, List.nodup_append]
        exact ⟨r.nodup_location, by simp, by rintro a ha b hb rfl; simp at hb; exact h (hb ▸ ha)⟩ }

/-- The registry without the mount at an address. -/
def removeAt (r : Registry) (l : Location) : Registry where
  mounts := r.mounts.filter (·.location != l)
  nodup_location := r.nodup_location.sublist (List.filter_sublist.map _)

/-- The address that a caller names; schemes are looked up in lower case. -/
def address (scheme : String) (authority : Option String) : Location :=
  ⟨some (Text.lowerCase scheme), authority⟩

/-- The mount of a scheme and an authority. -/
def get? (r : Registry) (scheme : String) (authority : Option String) : Option Mount :=
  r.at? (address scheme authority)

/-- Whether there is a mount of a scheme and an authority. -/
def has (r : Registry) (scheme : String) (authority : Option String) : Bool :=
  (r.get? scheme authority).isSome

/-- Removes the mount of a scheme and an authority. -/
def remove (r : Registry) (scheme : String) (authority : Option String) : Registry :=
  r.removeAt (address scheme authority)

/-- The mounts by label; equal labels stay in order. -/
def list (r : Registry) : List Mount := r.mounts.mergeSort fun a b => a.label ≤ b.label

/-- The mount that owns a path.  Failures name `named`, the path a caller began with. -/
def lookup (r : Registry) (path named : Path) : Except Error Mount :=
  match path.location with
  | ⟨none, some authority⟩ => .error (.authorityWithoutScheme authority named.text)
  | ⟨none, none⟩ => .error (.schemeMissing named.text)
  | ⟨some scheme, none⟩ =>
    match r.at? ⟨some scheme, none⟩ with
    | some m => .ok m
    | none =>
      if r.mounts.any (·.location.scheme == some scheme) then
        .error (.authorityExpected scheme named.text)
      else .error (.schemeUnknown scheme named.text)
  | ⟨some scheme, some authority⟩ =>
    match r.at? ⟨some scheme, some authority⟩ with
    | some m => .ok m
    | none => .error (.mountUnknown scheme authority named.text)

/-- The mount found at an address has it. -/
theorem location_of_at? {r : Registry} {l : Location} {m : Mount} (h : r.at? l = some m) :
    m.location = l := by
  have := List.find?_some h
  simpa using this

/-- In a list without two mounts of one address, each is found at its own. -/
theorem find?_location_of_mem {ms : List Mount} (h : (ms.map Mount.location).Nodup) {m : Mount}
    (hm : m ∈ ms) : ms.find? (·.location == m.location) = some m := by
  induction ms with
  | nil => simp at hm
  | cons a ms ih =>
    rw [List.map_cons, List.nodup_cons] at h
    rcases List.mem_cons.1 hm with rfl | hm
    · simp
    · have ha : a.location ≠ m.location := by
        intro ha
        exact h.1 (List.mem_map.2 ⟨m, hm, ha.symm⟩)
      simp [ha, ih h.2 hm]

/-- What is found at an address is the mount that has it. -/
theorem at?_eq_some_iff {r : Registry} {l : Location} {m : Mount} :
    r.at? l = some m ↔ m ∈ r.mounts ∧ m.location = l := by
  constructor
  · intro h
    exact ⟨List.mem_of_find?_eq_some h, location_of_at? h⟩
  · rintro ⟨hm, rfl⟩
    exact find?_location_of_mem r.nodup_location hm

/-- A mount is found at its address once it is added. -/
@[simp] theorem at?_add_self (r : Registry) (m : Mount) : (r.add m).at? m.location = some m := by
  rw [at?_eq_some_iff]
  refine ⟨?_, rfl⟩
  unfold add
  split
  · rename_i h
    obtain ⟨old, hold, same⟩ := List.mem_map.1 h
    exact List.mem_map.2 ⟨old, hold, by simp [same]⟩
  · simp

/-- Nothing is found at an address once its mount is removed. -/
@[simp] theorem at?_removeAt_self (r : Registry) (l : Location) : (r.removeAt l).at? l = none := by
  simp [at?, removeAt]

/-- Removing the mount of one address leaves those of the others. -/
theorem at?_removeAt_of_ne (r : Registry) {l other : Location} (h : other ≠ l) :
    (r.removeAt l).at? other = r.at? other := by
  apply Option.ext
  intro m
  rw [at?_eq_some_iff, at?_eq_some_iff]
  simp only [removeAt, List.mem_filter, bne_iff_ne]
  constructor
  · rintro ⟨⟨hm, -⟩, rfl⟩
    exact ⟨hm, rfl⟩
  · rintro ⟨hm, rfl⟩
    exact ⟨⟨hm, h⟩, rfl⟩

/-- A mount that a lookup finds has the location of the path. -/
theorem location_of_lookup {r : Registry} {path named : Path} {m : Mount}
    (h : r.lookup path named = .ok m) : m.location = path.location := by
  unfold lookup at h
  split at h
  · cases h
  · cases h
  · rename_i scheme hl
    split at h
    · rename_i found hf
      cases h
      rw [hl, location_of_at? hf]
    · split at h <;> cases h
  · rename_i scheme authority hl
    split at h
    · rename_i found hf
      cases h
      rw [hl, location_of_at? hf]
    · cases h

end Registry

end MountSpace
