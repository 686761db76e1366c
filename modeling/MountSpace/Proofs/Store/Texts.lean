import MountSpace.Proofs.Store.Links

/-!
# The texts of links

Stores keep the texts of links as they are given, and no operation makes up a text.  So whatever
holds of the text of every link that is made holds of the text of every link that is kept.

## Main definitions

* `HostTree.Texts`, `Disk.Texts`, `Table.Texts` — the texts of all links have a property.

Main statements: `HostTree.Texts.of_edited`, `Disk.Texts.of_status`, `Table.Texts.of_status`.
-/

namespace MountSpace

open Relation

variable {Q : String → Prop}

/-! ## Trees -/

namespace HostTree

variable {t t' : HostTree} {place src dest : Place} {now : Instant}

/-- The texts of all links have the property. -/
def Texts (Q : String → Prop) (t : HostTree) : Prop := ∀ e ∈ t.entries, e.2.node.Texts Q

theorem texts_bare (limits : HostLimits) (now : Instant) : (bare limits now).Texts Q := by
  intro e he
  cases List.mem_singleton.mp he
  exact Node.texts_directory

theorem Texts.find? (h : t.Texts Q) {entry : HostEntry} (hfind : t.find? place = some entry) :
    entry.node.Texts Q := by
  obtain ⟨l₁, l₂, hsplit, -⟩ := List.lookup_eq_some_iff.mp hfind
  have hmem : (place, entry) ∈ t.entries := by simp [hsplit]
  exact h _ hmem

namespace Texts

variable (h : t.Texts Q)

include h

theorem put {entry : HostEntry} (hnode : entry.node.Texts Q) : (t.put place entry).Texts Q := by
  rintro ⟨other, found⟩ he
  rcases mem_of_mem_setEntry he with he | ⟨-, rfl⟩
  · exact h _ he
  · exact hnode

theorem touch : (t.touch now place).Texts Q := by
  intro e he
  obtain ⟨was, hwas, rfl⟩ := List.mem_map.mp he
  split <;> exact h was hwas

theorem filter (keep : Place × HostEntry → Bool) :
    Texts Q { t with entries := t.entries.filter keep } :=
  fun e he => h e (List.mem_of_mem_filter he)

theorem relocate : (t.relocate src dest).Texts Q := by
  intro e he
  obtain ⟨was, hwas, rfl⟩ := List.mem_map.mp he
  exact h was hwas

theorem of_edits (he : t.Edits Q t') : t'.Texts Q := by
  cases he with
  | amend ha =>
    cases ha with
    | put hdir hold hnode => exact h.put hnode
    | @rewrite place old entry was content hold hwas hnode =>
      have hfile : entry.node.Texts Q := hnode ▸ Node.texts_file content
      exact h.put hfile
    | @retime place old entry hold hnode =>
      have hsame : entry.node.Texts Q := hnode ▸ h.find? hold
      exact h.put hsame
    | touch => exact h.touch
  | prune | empty => exact h.filter _
  | relocate => exact h.relocate

/-- **The texts of links keep the property** if every link that is made has it. -/
theorem of_edited (he : ReflTransGen (Edits Q) t t') : t'.Texts Q := by
  induction he with
  | refl => exact h
  | tail _ he ih => exact ih.of_edits he

end Texts

end HostTree

/-! ## Disks -/

namespace Disk

variable {d d' : Disk} {path : String}

/-- The texts of all links on the disk have the property. -/
def Texts (Q : String → Prop) (d : Disk) : Prop := d.tree.Texts Q

theorem Texts.of_edited (h : d.Texts Q)
    (he : ReflTransGen (HostTree.Edits Q) d.tree d'.tree) : d'.Texts Q :=
  HostTree.Texts.of_edited h he

theorem Texts.of_amended (h : d.Texts Q)
    (ha : ReflTransGen (HostTree.Amends Q) d.tree d'.tree) : d'.Texts Q :=
  h.of_edited (HostTree.edited_of_amended ha)

/-- The target that is reported is read from a text with the property. -/
theorem Texts.of_status (h : d.Texts Q) {status : Status} (hs : d.status path = .ok (some status))
    {target : Path} (ht : status.target = some target) :
    ∃ text, Q text ∧ Path.read text = .ok target := by
  obtain ⟨way, entry, -, hstat, hreport⟩ := status_eq_some hs
  obtain ⟨place, -, hfind⟩ := HostTree.stat_eq_ok.mp hstat
  obtain ⟨text, hnode, hread⟩ := text_of_report hreport ht
  exact ⟨text, HostTree.Texts.find? h hfind text hnode, hread⟩

end Disk

/-! ## Tables -/

namespace Table

variable {t t' : Table} {now : Instant} {key path text : String} {row source : Row}

/-- The texts of all links in the table have the property. -/
def Texts (Q : String → Prop) (t : Table) : Prop :=
  ∀ row ∈ t.rows, ∀ text, row.target = some text → Q text

namespace Texts

variable (h : t.Texts Q)

include h

theorem insert {kind : Kind} {content : Option Bytes} {target : Option String}
    (htarget : ∀ text, target = some text → Q text)
    (hi : t.insert now key kind content target = .ok t') : t'.Texts Q := by
  obtain ⟨parent, name, -, hrows⟩ := row_of_insert hi
  unfold Texts
  rw [hrows, List.forall_mem_append]
  exact ⟨h, by simpa using htarget⟩

theorem modify {f : Row → Row} (hf : ∀ r, (f r).target = r.target) :
    (t.modify key f).Texts Q := by
  intro row hrow text htext
  rw [rows_modify] at hrow
  obtain ⟨was, hwas, rfl⟩ := List.mem_map.mp hrow
  refine h was hwas text ?_
  split at htext
  · rwa [hf] at htext
  · exact htext

theorem write {data : Bytes} {overwrite : Bool} (hw : t.write now path data overwrite = .ok t') :
    t'.Texts Q := by
  obtain ⟨key, -, hinsert | ⟨row, -, -, -, rfl⟩⟩ := write_cases hw
  · exact h.insert (by simp) hinsert
  · exact h.modify fun _ => rfl

theorem append {data : Bytes} (ha : t.append now path data = .ok t') : t'.Texts Q := by
  obtain ⟨key, row, -, -, -, rfl⟩ := append_eq_ok ha
  exact h.modify fun _ => rfl

theorem makeDirectory (hm : t.makeDirectory now path = .ok t') : t'.Texts Q := by
  obtain ⟨key, -, -, -, -, -, hi⟩ := insert_of_makeDirectory hm
  exact h.insert (by simp) hi

theorem makeLink (htext : Q text) (hl : t.makeLink now path text = .ok t') : t'.Texts Q := by
  obtain ⟨key, -, hi⟩ := insert_of_makeLink hl
  exact h.insert (fun _ heq => Option.some.inj heq ▸ htext) hi

theorem setTimes {accessed modified : Option Moment}
    (hs : t.setTimes path accessed modified = .ok t') : t'.Texts Q := by
  rcases setTimes_cases hs with rfl | ⟨key, accessed, modified, rfl⟩
  · exact h
  · exact h.modify fun _ => rfl

theorem remove {recursive : Bool} (hr : t.remove row recursive = .ok t') : t'.Texts Q :=
  fun found hmem => h found ((mem_remove_iff hr).mp hmem).1

theorem delete {recursive found : Bool} (hd : t.delete path recursive = .ok (found, t')) :
    t'.Texts Q := by
  rcases rows_of_delete hd with ⟨-, rfl⟩ | ⟨-, key, row, -, -, hr⟩
  · exact h
  · exact h.remove hr

theorem move {src dest : String} {overwrite : Bool} (hm : t.move src dest overwrite = .ok t') :
    t'.Texts Q := by
  obtain ⟨S, D, source, cleared, -, -, hfind, hclears, hmove⟩ := moveRows_of_move hm
  have hcleared : cleared.Texts Q := fun row hrow => h row (hclears.mem hrow)
  rcases moves_of_moveRows hmove with ⟨-, rfl⟩ | ⟨-, hmoves, -⟩
  · exact hcleared
  intro row hrow text htext
  obtain ⟨r, hr, hmoved⟩ := exists_left_of_forall₂ hmoves hrow
  unfold Moves at hmoved
  split at hmoved
  · obtain ⟨parent, name, -, rfl⟩ := hmoved
    exact h source (find_eq_some hfind).1 text htext
  split at hmoved
  · obtain ⟨parent, name, -, rfl⟩ := hmoved
    exact hcleared r hr text htext
  · rw [hmoved] at htext
    exact hcleared r hr text htext

/-- The target that is reported is read from a text with the property. -/
theorem of_status {status : Status} (hs : t.status path = .ok (some status)) {target : Path}
    (ht : status.target = some target) : ∃ text, Q text ∧ Path.read text = .ok target := by
  rcases status_eq_some hs with rfl | ⟨key, row, -, hfind, hreport⟩
  · cases ht
  · obtain ⟨text, htext, hread⟩ := Row.text_of_status hreport ht
    exact ⟨text, h row (find_eq_some hfind).1 text htext, hread⟩

end Texts

end Table

end MountSpace
