import MountSpace.Proofs.Store.Walks
import MountSpace.Store.Disk
import Mathlib.Logic.Relation

/-!
# Changes of a tree

Whatever the host is asked for, it changes its tree in a few ways only: it puts an entry into a
directory, writes over a file, sets the times of an entry, marks a directory as changed, and takes
entries away or along.  What each of these changes keeps, every operation keeps, those of disks
included.

## Main definitions

* `HostTree.Amends` — one change that keeps every directory.
* `HostTree.Edits` — one change of any kind.

Main statements: `Disk.amended_write`, `Disk.edited_delete`, `Disk.edited_move`,
`HostTree.stay_of_amended`.
-/

namespace MountSpace

open Relation

variable {Q : String → Prop}

/-- The text has the property if the node is a link. -/
def Node.Texts (Q : String → Prop) (node : Node) : Prop := ∀ text, node = .link text → Q text

theorem Node.texts_file (data : Bytes) : (Node.file data).Texts Q := nofun

theorem Node.texts_directory : Node.directory.Texts Q := nofun

theorem Node.texts_link {text : String} (h : Q text) : (Node.link text).Texts Q := by
  rintro _ ⟨⟩
  exact h

namespace HostTree

variable {t t' : HostTree} {place dir src dest : Place} {names : List String} {name text : String}
variable {now : Instant} {data : Bytes} {node : Node}

/-- One change of a tree that keeps every directory.  The text of a link that is made has the
property. -/
inductive Amends (Q : String → Prop) (t : HostTree) : HostTree → Prop
  /-- An entry is put into a directory, in the place of anything but a directory. -/
  | put {place : Place} {entry : HostEntry} (hdir : t.node? place.dropLast = some .directory)
      (hold : t.node? place ≠ some .directory) (hnode : entry.node.Texts Q) :
      Amends Q t (t.put place entry)
  /-- A file is written over where it stands. -/
  | rewrite {place : Place} {old entry : HostEntry} {was content : Bytes}
      (hold : t.find? place = some old) (hwas : old.node = .file was)
      (hnode : entry.node = .file content) : Amends Q t (t.put place entry)
  /-- The times of an entry are set. -/
  | retime {place : Place} {old entry : HostEntry} (hold : t.find? place = some old)
      (hnode : entry.node = old.node) : Amends Q t (t.put place entry)
  /-- A directory is marked as changed. -/
  | touch (now : Instant) (dir : Place) : Amends Q t (t.touch now dir)

/-- The tree with nothing left below a place. -/
def emptied (t : HostTree) (place : Place) : HostTree :=
  { t with entries := t.entries.filter fun e => !place.isPrefixOf e.1 || e.1 == place }

/-- One change of a tree.  The text of a link that is made has the property. -/
inductive Edits (Q : String → Prop) (t : HostTree) : HostTree → Prop
  /-- Every directory is kept. -/
  | amend {t' : HostTree} (h : t.Amends Q t') : Edits Q t t'
  /-- What stands at a place is taken away with all below it. -/
  | prune (place : Place) : Edits Q t (t.prune place)
  /-- What stands below a place is taken away. -/
  | empty (place : Place) : Edits Q t (t.emptied place)
  /-- What stands at a place is taken along, with all below it, into a directory that stays. -/
  | relocate {src dest : Place} (hdir : t.node? dest.dropLast = some .directory)
      (hout : ¬src <+: dest.dropLast) : Edits Q t (t.relocate src dest)

theorem edited_of_amended (h : ReflTransGen (Amends Q) t t') : ReflTransGen (Edits Q) t t' :=
  ReflTransGen.mono (fun _ _ => Edits.amend) _ _ h

/-! ## Operations of the host -/

/-- Making an entry adds it at a place that was free. -/
theorem create_eq_ok (h : t.create now names node = .ok t') :
    ∃ place, t.vacancy names = .ok place ∧
      t' = (t.put place (node.fresh now)).touch now place.dropLast := by
  obtain ⟨place, hv, h⟩ := bind_eq_ok.mp h
  cases h
  exact ⟨place, hv, rfl⟩

theorem amended_create (hnode : node.Texts Q) (h : t.create now names node = .ok t') :
    ReflTransGen (Amends Q) t t' := by
  obtain ⟨place, hv, rfl⟩ := create_eq_ok h
  obtain ⟨dir, name, hh, -, -, hfree, rfl⟩ := vacancy_eq_ok.mp hv
  have hput : t.Amends Q (t.put (dir ++ [name]) (node.fresh now)) := by
    refine .put ?_ ?_ hnode
    · rw [List.dropLast_concat, node?_of_holder hh]
    · simp [node?, hfree]
  exact (ReflTransGen.single hput).tail (.touch _ _)

theorem makeLink_eq_ok (h : t.makeLink now names text = .ok t') :
    t.create now names (.link text) = .ok t' := by
  unfold makeLink at h
  split at h
  · cases h
  split at h
  · cases h
  · exact h

theorem amended_replaceFile (t : HostTree) (now : Instant) (names : List String) (data : Bytes) :
    ReflTransGen (Amends Q) t (t.replaceFile now names data).2 := by
  unfold replaceFile
  split
  · exact .refl
  rename_i dir name hh
  have htouch : ReflTransGen (Amends Q) t (t.touch now dir) := .single (.touch _ _)
  dsimp only
  split
  · exact htouch
  split
  · exact htouch
  split
  · exact htouch
  · rename_i hnode
    refine htouch.tail (.put ?_ hnode (Node.texts_file data))
    rw [List.dropLast_concat, node?_touch, node?_of_holder hh]

theorem append_eq_ok (h : t.append now names data = .ok t') :
    ∃ place content accessed modified, t.placeOf true names = .ok place ∧
      t.find? place = some ⟨.file content, accessed, modified⟩ ∧
      t' = t.put place ⟨.file (content ++ data), accessed, if data.isEmpty then modified else now⟩
      := by
  unfold append at h
  obtain ⟨place, hp, h⟩ := bind_eq_ok.mp h
  split at h
  · rename_i content accessed modified hfind
    cases h
    exact ⟨place, content, accessed, modified, hp, hfind, rfl⟩
  · cases h
  · cases h

theorem amended_append (h : t.append now names data = .ok t') :
    ReflTransGen (Amends Q) t t' := by
  obtain ⟨place, content, accessed, modified, -, hfind, rfl⟩ := append_eq_ok h
  exact .single (.rewrite hfind rfl rfl)

theorem amended_setTimes {accessed modified : Option Instant}
    (h : t.setTimes names accessed modified = .ok t') : ReflTransGen (Amends Q) t t' := by
  obtain ⟨place, hp, h⟩ := bind_eq_ok.mp h
  obtain ⟨entry, hstat, h⟩ := bind_eq_ok.mp h
  cases h
  obtain ⟨there, hthere, hfind⟩ := stat_eq_ok.mp hstat
  obtain rfl : place = there := Except.ok.inj (hp.symm.trans hthere)
  exact .single (.retime hfind rfl)

/-- Taking something away marks the directory that held it as changed. -/
theorem edited_prune (place dir : Place) (now : Instant) :
    ReflTransGen (Edits Q) t ((t.prune place).touch now dir) :=
  (ReflTransGen.single (.prune place)).tail (.amend (.touch now dir))

theorem edited_unlink (h : t.unlink now names = .ok t') : ReflTransGen (Edits Q) t t' := by
  obtain ⟨place, -, h⟩ := bind_eq_ok.mp h
  cases h
  exact edited_prune ..

theorem edited_removeDirectory (h : t.removeDirectory now names = .ok t') :
    ReflTransGen (Edits Q) t t' := by
  obtain ⟨⟨dir, name⟩, -, h⟩ := bind_eq_ok.mp h
  dsimp only at h
  split at h <;> cases h
  exact edited_prune ..

theorem edited_removeTree (t : HostTree) (now : Instant) (names : List String) :
    ReflTransGen (Edits Q) t (t.removeTree now names).2 := by
  unfold removeTree
  split
  · exact .refl
  split
  · exact .single (.empty _)
  · exact edited_prune ..

theorem edited_move (h : t.move now src dest = .ok t') : ReflTransGen (Edits Q) t t' := by
  obtain ⟨srcDir, srcName, destDir, destName, -, hdest, -, -, -, hout, rfl⟩ := relocate_of_move h
  have hmoved : t.Edits Q (t.relocate (srcDir ++ [srcName]) (destDir ++ [destName])) := by
    refine .relocate ?_ ?_
    · rw [List.dropLast_concat, node?_of_holder hdest]
    · rwa [List.dropLast_concat]
  exact ((ReflTransGen.single hmoved).tail (.amend (.touch _ _))).tail (.amend (.touch _ _))

/-! ## Directories -/

theorem stay_of_amends (h : t.Amends Q t') : DirectoriesStay t t' := by
  cases h with
  | put hdir hold hnode => exact stay_put _ hold
  | rewrite hold hwas hnode => exact stay_put _ (by simp [node?, hold, hwas])
  | @retime place old entry hold hnode =>
    refine ⟨rfl, fun other hother => ?_⟩
    by_cases heq : other = place
    · subst heq
      rwa [node?_put_self, hnode, ← Option.map_some, ← hold]
    · rwa [node?_put_of_ne heq]
  | touch now dir => exact ⟨rfl, fun _ h => by rwa [node?_touch]⟩

/-- **Operations that take nothing away keep every directory.** -/
theorem stay_of_amended (h : ReflTransGen (Amends Q) t t') : DirectoriesStay t t' := by
  induction h with
  | refl => exact .refl t
  | tail _ h ih =>
    have hstep := stay_of_amends h
    exact ⟨hstep.limits.trans ih.limits, fun place hdir => hstep.node place (ih.node place hdir)⟩

end HostTree

/-! ## Operations of disks -/

namespace Disk

open HostTree

variable {d d' : Disk} {now : Instant} {path text : String} {data : Bytes}

theorem amended_write (d : Disk) (now : Instant) (path : String) (data : Bytes)
    (overwrite : Bool) :
    ReflTransGen (Amends Q) d.tree (d.write now path data overwrite).2.tree := by
  unfold Disk.write
  split
  · exact .refl
  split
  · exact .refl
  · exact amended_replaceFile ..

theorem append_eq_ok (h : d.append now path data = .ok d') :
    ∃ way, d.way path = .ok way ∧ d.tree.append now way data = .ok d'.tree := by
  unfold Disk.append at h
  obtain ⟨way, hway, h⟩ := bind_eq_ok.mp h
  split at h
  · obtain ⟨t, happ, rfl⟩ := map_eq_ok.mp h
    exact ⟨way, hway, mapError_eq_ok.mp happ⟩
  · cases h
  · cases h

theorem amended_append (h : d.append now path data = .ok d') :
    ReflTransGen (Amends Q) d.tree d'.tree := by
  obtain ⟨way, -, happ⟩ := append_eq_ok h
  exact HostTree.amended_append happ

theorem makeDirectory_eq_ok (h : d.makeDirectory now path = .ok d') :
    ∃ way, d.way path = .ok way ∧ d.tree.create now way .directory = .ok d'.tree := by
  unfold Disk.makeDirectory at h
  obtain ⟨way, hway, h⟩ := bind_eq_ok.mp h
  obtain ⟨t, hmake, rfl⟩ := map_eq_ok.mp h
  exact ⟨way, hway, mapError_eq_ok.mp hmake⟩

theorem amended_makeDirectory (h : d.makeDirectory now path = .ok d') :
    ReflTransGen (Amends Q) d.tree d'.tree := by
  obtain ⟨way, -, hcreate⟩ := makeDirectory_eq_ok h
  exact amended_create Node.texts_directory hcreate

theorem makeLink_eq_ok (h : d.makeLink now path text = .ok d') :
    ∃ way, d.way path = .ok way ∧ d.tree.create now way (.link text) = .ok d'.tree := by
  unfold Disk.makeLink at h
  obtain ⟨way, hway, h⟩ := bind_eq_ok.mp h
  split at h
  · cases h
  obtain ⟨t, hmake, rfl⟩ := map_eq_ok.mp h
  exact ⟨way, hway, HostTree.makeLink_eq_ok (mapError_eq_ok.mp hmake)⟩

theorem amended_makeLink (htext : Q text) (h : d.makeLink now path text = .ok d') :
    ReflTransGen (Amends Q) d.tree d'.tree := by
  obtain ⟨way, -, hcreate⟩ := makeLink_eq_ok h
  exact amended_create (Node.texts_link htext) hcreate

theorem amended_setTimes {accessed modified : Option Moment}
    (h : d.setTimes path accessed modified = .ok d') :
    ReflTransGen (Amends Q) d.tree d'.tree := by
  obtain ⟨way, -, h⟩ := bind_eq_ok.mp h
  obtain ⟨t, hchange, rfl⟩ := map_eq_ok.mp h
  exact HostTree.amended_setTimes (mapError_eq_ok.mp hchange)

theorem edited_remove (d : Disk) (now : Instant) (path : String) (way : List String)
    (recursive : Bool) :
    ReflTransGen (Edits Q) d.tree (d.remove now path way recursive).2.tree := by
  unfold Disk.remove
  split
  · exact .refl
  split
  · exact edited_removeTree ..
  dsimp only
  split
  · rename_i t hr
    split at hr
    · exact edited_removeDirectory (mapError_eq_ok.mp hr)
    · exact edited_unlink (mapError_eq_ok.mp hr)
  · exact .refl

theorem edited_delete (d : Disk) (now : Instant) (path : String) (recursive : Bool) :
    ReflTransGen (Edits Q) d.tree (d.delete now path recursive).2.tree := by
  unfold Disk.delete
  split
  · exact .refl
  split
  · exact edited_remove ..
  · exact .refl

theorem edited_move (d : Disk) (now : Instant) (src dest : String) (overwrite : Bool) :
    ReflTransGen (Edits Q) d.tree (d.move now src dest overwrite).2.tree := by
  unfold Disk.move
  split
  · exact .refl
  · exact .refl
  rename_i srcWay destWay _ _
  dsimp only
  split
  · exact .refl
  -- What stands at the destination is taken away before the move.
  have hcleared : ReflTransGen (Edits Q) d.tree (if d.tree.isThere destWay = true then
      d.remove now dest destWay false else (.ok (), d)).2.tree := by
    split
    · exact edited_remove ..
    · exact .refl
  rcases hc : (if d.tree.isThere destWay = true then d.remove now dest destWay false
    else (.ok (), d)) with ⟨cleared, mid⟩
  rw [hc] at hcleared
  dsimp only
  split
  · exact hcleared
  split
  · rename_i hmove
    exact hcleared.trans (HostTree.edited_move hmove)
  · exact hcleared

end Disk

end MountSpace
