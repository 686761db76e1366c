/-!
# Lists of pairs

A list of pairs as a table from keys to values, in the order in which the keys were first used.
It is read with `List.lookup`.

## Main definitions

* `setEntry` — the list with another value under a key.

Main statements: the value that was put under a key is found there, and all other keys keep
theirs; so do they when a value is changed or entries are chosen by their keys.
-/

namespace MountSpace

variable {κ ν : Type} [BEq κ]

/-- The entry under a key of a list of pairs, in the place of an old one or at the end. -/
def setEntry (key : κ) (value : ν) : List (κ × ν) → List (κ × ν)
  | [] => [(key, value)]
  | (k, v) :: rest => if k == key then (key, value) :: rest else (k, v) :: setEntry key value rest

/-- The entry that was put under a key is found there. -/
@[simp] theorem lookup_setEntry_self [LawfulBEq κ] (key : κ) (value : ν) (l : List (κ × ν)) :
    (setEntry key value l).lookup key = some value := by
  induction l with
  | nil => simp [setEntry]
  | cons e l ih =>
    obtain ⟨k, v⟩ := e
    by_cases h : k = key
    · simp [setEntry, h]
    · have h' : (key == k) = false := by simpa using Ne.symm h
      simp [setEntry, h, List.lookup_cons, h', ih]

/-- Entries under other keys stay. -/
theorem lookup_setEntry_of_ne [LawfulBEq κ] {key other : κ} (h : other ≠ key) (value : ν)
    (l : List (κ × ν)) : (setEntry key value l).lookup other = l.lookup other := by
  have h' : (other == key) = false := by simpa using h
  induction l with
  | nil => simp [setEntry, List.lookup_cons, h']
  | cons e l ih =>
    obtain ⟨k, v⟩ := e
    by_cases hk : k = key
    · subst hk; simp [setEntry, List.lookup_cons, h']
    · have hk' : (k == key) = false := by simpa using hk
      simp [setEntry, hk', List.lookup_cons, ih]

/-- Changing the value under one key leaves the others. -/
theorem lookup_map_key [LawfulBEq κ] (key other : κ) (f : ν → ν) (l : List (κ × ν)) :
    (l.map fun e => if e.1 == key then (e.1, f e.2) else e).lookup other =
      if other == key then (l.lookup key).map f else l.lookup other := by
  induction l with
  | nil => simp
  | cons e l ih =>
    obtain ⟨k, v⟩ := e
    by_cases hk : k = key
    · subst hk
      by_cases ho : other = k
      · subst ho; simp
      · have ho' : (other == k) = false := by simpa using ho
        simp [List.lookup_cons, ho', ih]
    · have hk' : (key == k) = false := by simpa using Ne.symm hk
      by_cases ho : other = k
      · subst ho; simp [hk]
      · have ho' : (other == k) = false := by simpa using ho
        simp [List.lookup_cons, hk, hk', ho', ih]

/-- Where no two entries have one key, each is found under its own. -/
theorem lookup_eq_some_iff_mem [LawfulBEq κ] {l : List (κ × ν)} (h : (l.map Prod.fst).Nodup)
    {key : κ} {value : ν} : l.lookup key = some value ↔ (key, value) ∈ l := by
  induction l with
  | nil => simp
  | cons e l ih =>
    obtain ⟨k, v⟩ := e
    rw [List.map_cons, List.nodup_cons] at h
    by_cases hkey : key = k
    · subst hkey
      have hout : (key, value) ∉ l := fun hmem => h.1 (List.mem_map.mpr ⟨_, hmem, rfl⟩)
      simp [hout, eq_comm]
    · have hkey' : (key == k) = false := by simpa using hkey
      rw [List.lookup_cons, hkey', List.mem_cons]
      simpa [hkey] using ih h.2

/-- Putting an entry under a key leaves the keys of a list distinct. -/
theorem nodup_setEntry [LawfulBEq κ] {key : κ} {value : ν} {l : List (κ × ν)}
    (h : (l.map Prod.fst).Nodup) : ((setEntry key value l).map Prod.fst).Nodup := by
  have hmem : ∀ {l : List (κ × ν)} {k : κ}, k ∈ (setEntry key value l).map Prod.fst →
      k = key ∨ k ∈ l.map Prod.fst := by
    intro l k hk
    induction l with
    | nil => simpa [setEntry] using hk
    | cons e l ih =>
      obtain ⟨k', v⟩ := e
      by_cases hkey : k' = key
      · rw [setEntry, if_pos (by simpa using hkey), List.map_cons, List.mem_cons] at hk
        exact hk.imp_right (List.mem_cons_of_mem _)
      · rw [setEntry, if_neg (by simpa using hkey), List.map_cons, List.mem_cons] at hk
        rcases hk with rfl | hk
        · exact .inr List.mem_cons_self
        · exact (ih hk).imp_right (List.mem_cons_of_mem _)
  induction l with
  | nil => simp [setEntry]
  | cons e l ih =>
    obtain ⟨k, v⟩ := e
    rw [List.map_cons, List.nodup_cons] at h
    by_cases hkey : k = key
    · subst hkey
      simpa [setEntry] using h
    · rw [setEntry, if_neg (by simpa using hkey), List.map_cons, List.nodup_cons]
      exact ⟨fun hk => (hmem hk).elim hkey h.1, ih h.2⟩

/-- Choosing entries by their keys leaves what is found under the chosen ones. -/
theorem lookup_filter_key [LawfulBEq κ] (p : κ → Bool) (key : κ) (l : List (κ × ν)) :
    (l.filter fun e => p e.1).lookup key = if p key then l.lookup key else none := by
  induction l with
  | nil => simp
  | cons e l ih =>
    obtain ⟨k, v⟩ := e
    by_cases hk : key = k
    · subst hk
      cases hp : p key <;> simp [hp, ih]
    · have hk' : (key == k) = false := by simpa using hk
      cases hp : p k <;> simp [List.lookup_cons, hp, hk', ih]

end MountSpace
