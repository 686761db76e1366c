import MountSpace.Proofs.Store.Edits

/-!
# Grounded trees

Whatever stands at a place of the host stands in something, and so on up to the root.  Every
operation leaves it so, whatever has become of the home of the disk, so nothing ever lies below a
place that is free.

## Main definitions

* `HostTree.Grounded` — whatever stands at a place stands in something.

Main statements: `HostTree.Grounded.free_below`, `HostTree.Grounded.of_edited`.
-/

namespace MountSpace

open Relation

namespace HostTree

variable {t t' : HostTree} {place other src dest : Place} {now : Instant}

/-- Whatever stands at a place stands in something. -/
def Grounded (t : HostTree) : Prop :=
  ∀ place, t.find? place ≠ none → t.find? place.dropLast ≠ none

theorem find?_ne_none_iff : t.find? place ≠ none ↔ ∃ entry, (place, entry) ∈ t.entries := by
  rw [find?, ne_eq, List.lookup_eq_none_iff]
  constructor
  · intro h
    push Not at h
    obtain ⟨⟨key, entry⟩, hmem, hkey⟩ := h
    obtain rfl : place = key := by simpa using hkey
    exact ⟨entry, hmem⟩
  · rintro ⟨entry, hmem⟩ h
    simpa using h _ hmem

theorem grounded_iff : t.Grounded ↔ ∀ e ∈ t.entries, t.find? e.1.dropLast ≠ none := by
  constructor
  · exact fun h e he => h e.1 (find?_ne_none_iff.mpr ⟨e.2, he⟩)
  · intro h place hplace
    obtain ⟨entry, hmem⟩ := find?_ne_none_iff.mp hplace
    exact h (place, entry) hmem

instance (t : HostTree) : Decidable t.Grounded := decidable_of_iff _ grounded_iff.symm

/-- On the way to what stands anywhere, something stands everywhere. -/
theorem Grounded.of_prefix (h : t.Grounded) (hp : place <+: other) (ho : t.find? other ≠ none) :
    t.find? place ≠ none := by
  obtain ⟨rest, rfl⟩ := hp
  induction rest using List.reverseRecOn with
  | nil => simpa using ho
  | append_singleton rest name ih =>
    have hup := h _ ho
    rw [← List.append_assoc, List.dropLast_concat] at hup
    exact ih hup

/-- Nothing stands below a place that is free. -/
theorem Grounded.free_below (h : t.Grounded) (hfree : t.find? place = none)
    (hp : place <+: other) : t.find? other = none := by
  by_contra ho
  exact h.of_prefix hp ho hfree

/-! ## Changes of a tree -/

theorem grounded_bare (limits : HostLimits) (now : Instant) : (bare limits now).Grounded := by
  intro place hplace
  obtain ⟨entry, hmem⟩ := find?_ne_none_iff.mp hplace
  obtain rfl : place = [] := by simpa [bare] using congrArg Prod.fst (List.mem_singleton.mp hmem)
  exact hplace

theorem Grounded.modify (h : t.Grounded) (place : Place) (f : HostEntry → HostEntry) :
    (t.modify place f).Grounded := by
  have hsame : ∀ other, (t.modify place f).find? other = none ↔ t.find? other = none := by
    intro other
    rw [find?_modify]
    split
    · rename_i heq
      rw [eq_of_beq heq, Option.map_eq_none_iff]
    · rfl
  intro other ho
  rw [ne_eq, hsame] at ho ⊢
  exact h other ho

theorem Grounded.touch (h : t.Grounded) (place : Place) : (t.touch now place).Grounded :=
  h.modify place _

/-- What is put in something that is there is grounded. -/
theorem Grounded.put (h : t.Grounded) (hdir : t.find? place.dropLast ≠ none) (entry : HostEntry) :
    (t.put place entry).Grounded := by
  intro other ho
  by_cases hup : other.dropLast = place
  · rw [hup, find?_put_self]
    simp
  rw [find?_put_of_ne t hup]
  by_cases heq : other = place
  · rw [heq]
    exact hdir
  · rw [find?_put_of_ne t heq] at ho
    exact h other ho

/-- Something new is grounded in the place where it is put, something renewed where it stood. -/
theorem Grounded.renew (h : t.Grounded) (hold : t.find? place ≠ none) (entry : HostEntry) :
    (t.put place entry).Grounded := h.put (h place hold) entry

theorem prefix_of_prefix_dropLast (h : place <+: other.dropLast) : place <+: other :=
  h.trans (List.dropLast_prefix other)

theorem Grounded.prune (h : t.Grounded) (place : Place) : (t.prune place).Grounded := by
  intro other ho
  rw [find?_prune] at ho ⊢
  split at ho
  · exact absurd rfl ho
  rename_i hout
  rw [if_neg fun hup => hout ?_]
  · exact h other ho
  · exact List.isPrefixOf_iff_prefix.mpr
      (prefix_of_prefix_dropLast (List.isPrefixOf_iff_prefix.mp hup))

theorem find?_emptied : (t.emptied place).find? other =
    if (!place.isPrefixOf other || other == place) = true then t.find? other else none :=
  lookup_filter_key (fun p => !place.isPrefixOf p || p == place) other t.entries

/-- Emptying a directory leaves what is above it. -/
theorem Grounded.emptied (h : t.Grounded) (place : Place) : (t.emptied place).Grounded := by
  intro other ho
  rw [find?_emptied] at ho ⊢
  split at ho
  swap
  · exact absurd rfl ho
  rename_i hin
  by_cases hnil : other = []
  · subst hnil
    rw [List.dropLast_nil, if_pos hin]
    exact ho
  rw [if_pos ?_]
  · exact h other ho
  simp only [Bool.or_eq_true, Bool.not_eq_true', beq_iff_eq] at hin ⊢
  refine .inl (Bool.eq_false_iff.mpr fun hup => ?_)
  rw [List.isPrefixOf_iff_prefix] at hup
  rcases hin with hout | rfl
  · rw [List.isPrefixOf_iff_prefix.mpr (prefix_of_prefix_dropLast hup)] at hout
    cases hout
  · have hlen := hup.length_le
    rw [List.length_dropLast] at hlen
    have := List.length_pos_iff.mpr hnil
    omega

theorem relocate_ne_none_iff : (t.relocate src dest).find? place ≠ none ↔
    ∃ old, t.find? old ≠ none ∧ rebase src dest old = place := by
  rw [find?_ne_none_iff]
  constructor
  · rintro ⟨entry, hmem⟩
    obtain ⟨⟨old, entry'⟩, hold, heq⟩ := List.mem_map.mp hmem
    exact ⟨old, find?_ne_none_iff.mpr ⟨entry', hold⟩, (Prod.mk.inj heq).1⟩
  · rintro ⟨old, hold, rfl⟩
    obtain ⟨entry, hmem⟩ := find?_ne_none_iff.mp hold
    exact ⟨entry, List.mem_map.mpr ⟨_, hmem, rfl⟩⟩

/-- What is taken to a place in something that stays is grounded. -/
theorem Grounded.relocate (h : t.Grounded) (hdir : t.find? dest.dropLast ≠ none)
    (hout : ¬src <+: dest.dropLast) : (t.relocate src dest).Grounded := by
  intro place hplace
  obtain ⟨old, hold, rfl⟩ := relocate_ne_none_iff.mp hplace
  rw [relocate_ne_none_iff]
  by_cases hin : src <+: old
  swap
  · -- What is above an entry that stays is not taken along either.
    rw [rebase_of_not_below hin]
    exact ⟨old.dropLast, h old hold,
      rebase_of_not_below fun hup => hin (prefix_of_prefix_dropLast hup)⟩
  obtain ⟨rest, rfl⟩ := hin
  rw [rebase_append]
  rcases List.eq_nil_or_concat' rest with rfl | ⟨init, last, rfl⟩
  · rw [List.append_nil]
    exact ⟨dest.dropLast, hdir, rebase_of_not_below hout⟩
  · have hup := h _ hold
    rw [← List.append_assoc, List.dropLast_concat] at hup ⊢
    exact ⟨src ++ init, hup, rebase_append ..⟩

theorem find?_ne_none_of_node? {node : Node} (h : t.node? place = some node) :
    t.find? place ≠ none := by
  obtain ⟨entry, hfind, -⟩ := node?_eq_some.mp h
  simp [hfind]

theorem Grounded.of_edits {Q : String → Prop} (h : t.Grounded) (he : t.Edits Q t') :
    t'.Grounded := by
  cases he with
  | amend ha =>
    cases ha with
    | put hdir hold hnode => exact h.put (find?_ne_none_of_node? hdir) _
    | rewrite hold hwas hnode => exact h.renew (by simp [hold]) _
    | retime hold hnode => exact h.renew (by simp [hold]) _
    | touch now dir => exact h.touch dir
  | prune place => exact h.prune place
  | empty place => exact h.emptied place
  | relocate hdir hout => exact h.relocate (find?_ne_none_of_node? hdir) hout

/-- **A grounded tree stays grounded**, whatever is done to it. -/
theorem Grounded.of_edited {Q : String → Prop} (h : t.Grounded)
    (he : ReflTransGen (Edits Q) t t') : t'.Grounded := by
  induction he with
  | refl => exact h
  | tail _ he ih => exact ih.of_edits he

end HostTree

/-! ## Disks -/

namespace Disk

/-- The tree of the disk is grounded. -/
def Grounded (d : Disk) : Prop := d.tree.Grounded

theorem Grounded.of_edited {d d' : Disk} {Q : String → Prop} (h : d.Grounded)
    (he : ReflTransGen (HostTree.Edits Q) d.tree d'.tree) : d'.Grounded :=
  HostTree.Grounded.of_edited h he

theorem grounded_homeless (limits : HostLimits) (now : Instant) : (homeless limits now).Grounded :=
  HostTree.grounded_bare limits now

theorem grounded_fresh (limits : HostLimits) (now : Instant) : (fresh limits now).Grounded :=
  (HostTree.grounded_bare limits now).put (by simp [HostTree.bare, HostTree.find?]) _

end Disk

end MountSpace
