import MountSpace.Proofs.Store.Grounded
import MountSpace.Proofs.Store.Open
import MountSpace.Proofs.Store.Tree

/-!
# Confined paths

A path is confined when whatever stands on its way before the last name is a directory.  A disk
refuses a path only for a link on its way, so it refuses no confined path.  A way stays confined
while directories are made, and nothing stands beyond a name that is missing.

## Main definitions

* `Allowed` — an outcome that is no refusal of a link on the way.
* `Disk.Confined` — only directories stand on the way to some names.

Main statements: `Disk.allowed_way`, `Disk.Confined.of_makeDirectory`, `Disk.confined_of_missing`.
-/

namespace MountSpace

open MountSpace.Path

/-! ## Outcomes that are no refusal -/

/-- The outcome is no refusal of a link on the way. -/
def Allowed {α : Type} (r : Except Error α) : Prop :=
  ∀ e, r = .error e → e.kind ≠ .permissionDenied

section Allowed

variable {α β : Type} {r : Except Error α}

theorem allowed_ok (a : α) : Allowed (.ok a : Except Error α) := fun _ h => by cases h

theorem allowed_error {e : Error} (h : e.kind ≠ .permissionDenied) :
    Allowed (.error e : Except Error α) := fun _ h' => by cases h'; exact h

theorem Allowed.bind {f : α → Except Error β} (h : Allowed r)
    (hf : ∀ a, r = .ok a → Allowed (f a)) : Allowed (r >>= f) := by
  rcases r with e | a
  · exact allowed_error (h e rfl)
  · exact hf a rfl

theorem Allowed.map (h : Allowed r) (f : α → β) : Allowed (f <$> r) := by
  rcases r with e | a
  · exact allowed_error (h e rfl)
  · exact allowed_ok _

theorem Allowed.ite {c : Prop} [Decidable c] {r' : Except Error α} (h : Allowed r)
    (h' : Allowed r') : Allowed (if c then r else r') := by
  split
  · exact h
  · exact h'

theorem allowed_mapM {f : α → Except Error β} {xs : List α} (h : ∀ x ∈ xs, Allowed (f x)) :
    Allowed (xs.mapM f) := by
  intro e he
  obtain ⟨x, hx, hfail⟩ := exists_error_of_mapM he
  exact h x hx e hfail

theorem allowed_mapError {ε : Type} {cause : ε → Error}
    (h : ∀ c, (cause c).kind ≠ .permissionDenied) (r : Except ε α) :
    Allowed (r.mapError cause) := by
  rcases r with c | a
  · exact allowed_error (h c)
  · exact allowed_ok a

theorem allowed_read (text : String) : Allowed (Path.read text) :=
  allowed_mapError (fun _ => by simp [Error.kind]) _

end Allowed

/-! ## Disks -/

/-- A way on which only directories stand is straight. -/
theorem HostTree.straight_of_confined {t : HostTree} {dir : Place} {names : List String}
    (h : ∀ front, front <+: names → front ≠ names → ∀ node, t.node? (dir ++ front) = some node →
      node = .directory) : t.Straight dir names := by
  induction names generalizing dir with
  | nil => trivial
  | cons name rest ih =>
    rcases rest with - | ⟨second, rest⟩
    · trivial
    refine .inr ⟨fun text hnode => ?_, fun _ => ih fun front hf hne node hnode => ?_⟩
    · have hdir := h [name] (by simp) (by simp) _ hnode
      cases hdir
    · rw [List.append_assoc] at hnode
      exact h (name :: front) ((List.prefix_cons_inj name).mpr hf) (by simpa using hne) node hnode

/-- A walk goes down directories to the last name. -/
theorem HostTree.advance_concat {t : HostTree} {dir : Place} {names : List String} {name : String}
    (ho : ∀ n ∈ names, Ordinary n) (hshort : ∀ n ∈ names, t.limits.refusesName n = false)
    (hdir : ∀ front, front <+: names → front ≠ [] → t.node? (dir ++ front) = some .directory) :
    t.advance false dir (names ++ [name]) = t.advance false (dir ++ names) [name] := by
  induction names generalizing dir with
  | nil => rw [List.nil_append, List.append_nil]
  | cons next rest ih =>
    rw [List.cons_append, advance_cons (ho next (by simp)) (by simp),
      if_neg (by simp [hshort next (by simp)]), hdir [next] (by simp) (by simp)]
    dsimp only
    rw [ih (fun n hn => ho n (by simp [hn])) (fun n hn => hshort n (by simp [hn])),
      List.append_assoc]
    · rfl
    intro front hf _
    rw [List.append_assoc]
    exact hdir (next :: front) ((List.prefix_cons_inj next).mpr hf) (by simp)

namespace Disk

variable {d : Disk} {now : Instant} {path text : String} {names front : List String}

/-- Whatever stands on the way to some names, before the last of them, is a directory. -/
def Confined (d : Disk) (names : List String) : Prop :=
  ∀ front, front <+: names → front ≠ names → ∀ node, d.tree.node? (home :: front) = some node →
    node = .directory

theorem confined_nil (d : Disk) : d.Confined [] := by
  intro front hf hne
  exact absurd (List.prefix_nil.mp hf) hne

theorem Confined.of_prefix (h : d.Confined names) (hf : front <+: names) : d.Confined front := by
  intro other ho hne node hnode
  refine h other (ho.trans hf) (fun heq => hne ?_) node hnode
  subst heq
  exact (ho.eq_of_length (le_antisymm ho.length_le hf.length_le))

/-- The check of a way finds no link if only directories stand on it. -/
theorem Homed.allowed_checkWay (h : d.Homed) {done rest : List String}
    (ho : ∀ n ∈ done ++ rest, Ordinary n) (hc : d.Confined (done ++ rest)) :
    Allowed (d.checkWay path done rest) := by
  induction rest generalizing done with
  | nil => exact allowed_ok ()
  | cons name rest ih =>
    rcases rest with - | ⟨second, rest⟩
    · exact allowed_ok ()
    have hsplit : done ++ name :: second :: rest = (done ++ [name]) ++ second :: rest := by simp
    rw [hsplit] at ho hc
    have hhere : ∀ n ∈ done ++ [name], Ordinary n := fun n hn => ho n (List.mem_append_left _ hn)
    have hstraight : d.tree.Straight [home] (done ++ [name]) :=
      HostTree.straight_of_confined (hc.of_prefix (List.prefix_append _ _))
    rw [checkWay]
    swap
    · simp
    split
    · rename_i text _ _ hstat
      obtain ⟨place, hp, hfind⟩ := HostTree.stat_eq_ok.mp hstat
      rw [HostTree.Base.place_eq h hstraight hhere hp] at hfind
      have hnode : d.tree.node? (home :: (done ++ [name])) = some (.link text) := by
        rw [HostTree.node?, hfind]
        rfl
      have hdir := hc (done ++ [name]) (List.prefix_append _ _) (by simp) _ hnode
      cases hdir
    · exact allowed_error (by simp [Error.kind])
    · exact ih ho hc

/-- **A confined path is not refused.** -/
theorem Homed.allowed_way (h : d.Homed) (ho : ∀ n ∈ names, Ordinary n)
    (hc : d.Confined (settle names)) : Allowed (d.way (rootText names)) := by
  unfold Disk.way
  refine (allowed_read _).bind fun p hp => ?_
  obtain rfl := eq_of_read_rootText ho hp
  refine Allowed.bind ?_ fun _ _ => allowed_ok _
  exact h.allowed_checkWay (by simpa using settle_ordinary ho) (by simpa using hc)

/-! ## Operations that are not refused -/

section Allowed

theorem allowed_fromHost {α : Type} {translate : HostError → Option Error}
    (h : ∀ cause e, translate cause = some e → e.kind ≠ .permissionDenied)
    (r : Except HostError α) : Allowed (fromHost translate r) := by
  refine allowed_mapError (fun cause => ?_) r
  cases he : translate cause with
  | none => simp [Error.kind]
  | some e => exact h cause e he

theorem allowed_host {α : Type} (r : Except HostError α) : Allowed (r.mapError .host) :=
  allowed_mapError (fun _ => by simp [Error.kind]) r

theorem allowed_report (path : String) (entry : HostEntry) : Allowed (report path entry) := by
  unfold report
  cases entry.node with
  | file | directory =>
    exact (allowed_ok _).bind fun _ _ => (allowed_read path).bind fun _ _ => allowed_ok _
  | link text =>
    exact (allowed_read text).bind fun _ _ => (allowed_ok _).bind fun _ _ =>
      (allowed_read path).bind fun _ _ => allowed_ok _

variable (hw : Allowed (d.way path))
include hw

theorem allowed_status : Allowed (d.status path) := by
  refine hw.bind fun way _ => ?_
  split
  · exact (allowed_report path _).bind fun _ _ => allowed_ok _
  · exact allowed_ok _
  · exact allowed_ok _
  · exact allowed_error (by simp [Error.kind])

theorem allowed_content : Allowed (d.content path) := by
  refine hw.bind fun way _ => allowed_fromHost (fun cause e he => ?_) _
  split at he <;> cases he <;> simp [Error.kind]

theorem allowed_list : Allowed (d.list path) := by
  refine hw.bind fun way _ => (allowed_read path).bind fun base _ =>
    Allowed.bind ?_ fun entries _ =>
      Allowed.bind (allowed_mapM fun x _ => allowed_report _ _) fun _ _ => allowed_ok _
  refine allowed_fromHost (fun cause e he => ?_) _
  split at he <;> cases he
  simp [Error.kind]

theorem allowed_write (data : Bytes) (overwrite : Bool) :
    Allowed (d.write now path data overwrite).1 := by
  unfold write
  split
  · rename_i e he
    exact allowed_error (hw e he)
  · split
    · exact allowed_error (by simp [Error.kind])
    · exact allowed_host _

theorem allowed_append (data : Bytes) : Allowed (d.append now path data) := by
  refine hw.bind fun way _ => ?_
  split
  · exact (allowed_host _).map _
  · exact allowed_error (by simp [Error.kind])
  · exact allowed_error (by simp [Error.kind])

theorem allowed_makeDirectory : Allowed (d.makeDirectory now path) := by
  refine hw.bind fun way _ => (allowed_fromHost (fun cause e he => ?_) _).map _
  split at he <;> cases he <;> simp [Error.kind]

theorem allowed_makeLink (target : String) : Allowed (d.makeLink now path target) := by
  refine hw.bind fun way _ => ?_
  dsimp only
  split
  · exact allowed_error (by simp [Error.kind])
  · refine (allowed_fromHost (fun cause e he => ?_) _).map _
    split at he <;> cases he
    simp [Error.kind]

theorem allowed_setTimes (accessed modified : Option Moment) :
    Allowed (d.setTimes path accessed modified) :=
  hw.bind fun _ _ => (allowed_host _).map _

omit hw in
theorem allowed_remove (way : List String) (recursive : Bool) :
    Allowed (d.remove now path way recursive).1 := by
  unfold remove
  split
  · exact allowed_error (by simp [Error.kind])
  split
  · exact allowed_host _
  dsimp only
  split
  · exact allowed_ok ()
  · rename_i e he
    refine allowed_error ?_
    split at he
    · refine allowed_fromHost (fun cause e he => ?_) _ e he
      split at he <;> cases he <;> simp [Error.kind]
    · exact allowed_host _ e he

theorem allowed_delete (recursive : Bool) : Allowed (d.delete now path recursive).1 := by
  unfold delete
  split
  · rename_i e he
    exact allowed_error (hw e he)
  split
  · exact (allowed_remove _ recursive).map _
  · exact allowed_ok _

omit hw in
theorem allowed_blameSource {e : Error} (h : e.kind ≠ .permissionDenied) (src : String) :
    (blameSource src e).kind ≠ .permissionDenied := by
  unfold blameSource
  split
  · simp [Error.kind]
  · exact h

theorem allowed_move {dest : String} (hdest : Allowed (d.way dest)) (overwrite : Bool) :
    Allowed (d.move now path dest overwrite).1 := by
  unfold move
  split
  · rename_i e he
    exact allowed_error (hw e he)
  · rename_i e _ he
    exact allowed_error (hdest e he)
  dsimp only
  split
  · exact allowed_error (by simp [Error.kind])
  split
  · rename_i e he
    refine allowed_error (allowed_blameSource ?_ path)
    split at he
    · exact allowed_remove _ false e he
    · cases he
  split
  · exact allowed_ok ()
  · exact allowed_error (allowed_blameSource (by simp [Error.kind]) path)

end Allowed

/-! ## Reports on confined ways -/

/-- Where nothing is reported in a directory to which directories lead, nothing stands. -/
theorem Homed.find?_of_status_none (h : d.Homed) {name : String}
    (ho : ∀ n ∈ names ++ [name], Ordinary n) (hsettle : settle (names ++ [name]) = names ++ [name])
    (hopen : d.tree.Open home names) (hdir : d.tree.node? (home :: names) = some .directory)
    (hs : d.status (rootText (names ++ [name])) = .ok none) :
    d.tree.find? (home :: (names ++ [name])) = none := by
  have hnames : ∀ n ∈ names, Ordinary n := fun n hn => ho n (List.mem_append_left _ hn)
  have hname : Ordinary name := ho name (by simp)
  have hdirs : ∀ front, front <+: names → d.tree.node? (home :: front) = some .directory := by
    intro front hf
    by_cases hlast : front = names
    · rw [hlast]
      exact hdir
    · exact hopen.directories front (OnTheWay.prefix_dropLast ⟨hf, hlast⟩)
  obtain ⟨way, cause, hway, hstat, hcause⟩ := status_eq_none hs
  obtain ⟨rfl, -⟩ := h.way_eq ho hway
  rw [hsettle] at hstat
  -- A way or a name that is too long is not passed over in silence.
  have hsilent : d.tree.stat false (home :: (names ++ [name])) ≠ .error .nameTooLong := by
    rw [hstat]
    rcases hcause with rfl | rfl <;> simp
  have hfits : d.tree.limits.refusesWay (home :: (names ++ [name])) = false := by
    by_contra hlong
    exact hsilent (HostTree.stat_of_refused (by simpa using hlong))
  have hshort : d.tree.limits.refusesName name = false := by
    by_contra hlong
    have hfail : d.tree.advance false [home] (names ++ [name]) = .failed .nameTooLong := by
      rw [HostTree.advance_concat hnames hopen.short fun front hf _ => hdirs front hf,
        HostTree.advance_last hname, if_pos (by simpa using hlong)]
    rw [← HostTree.Base.advance h false (by simp)] at hfail
    refine hsilent ?_
    rw [HostTree.stat, HostTree.placeOf, hfits, HostTree.locate_of_failed hfail]
    rfl
  have hopen' : d.tree.Open home (names ++ [name]) := by
    refine ⟨hfits, fun n hn => ?_, fun front hf => hdirs front (by simpa using hf)⟩
    rcases List.mem_append.mp hn with hn | hn
    · exact hopen.short n hn
    · rw [List.mem_singleton.mp hn]
      exact hshort
  rw [hopen'.stat_eq h ho] at hstat
  cases hfind : d.tree.find? (home :: (names ++ [name])) with
  | none => rfl
  | some entry =>
    rw [hfind] at hstat
    cases hstat

/-! ## Ways that stay confined -/

/-- What stands on the way before the last name leads there over directories. -/
theorem confined_of_open (h : d.tree.Open home names) : d.Confined names := by
  intro front hf hne node hnode
  have hshort : front <+: names.dropLast := by
    rcases List.eq_nil_or_concat' names with rfl | ⟨init, last, rfl⟩
    · exact absurd (List.prefix_nil.mp hf) hne
    · rw [List.dropLast_concat]
      exact (List.prefix_concat_iff.mp hf).resolve_left hne
  rw [h.directories front hshort] at hnode
  exact (Option.some.inj hnode).symm

/-- Below a directory to which directories lead, every way is confined for one more name. -/
theorem confined_concat {name : String} (h : d.tree.Open home names)
    (hdir : d.tree.node? (home :: names) = some .directory) : d.Confined (names ++ [name]) := by
  intro front hf hne node hnode
  rcases List.prefix_concat_iff.mp hf with rfl | hf
  · exact absurd rfl hne
  by_cases hlast : front = names
  · rw [hlast, hdir] at hnode
    exact (Option.some.inj hnode).symm
  · exact confined_of_open h front hf hlast node hnode

/-- Beyond a name that is missing nothing stands. -/
theorem confined_of_missing (hg : d.Grounded) (hf : front <+: names) (hc : d.Confined front)
    (hfree : d.tree.find? (home :: front) = none) : d.Confined names := by
  intro other ho hne node hnode
  have hnone : ¬front <+: other := fun hfo => by
    have := hg.free_below hfree ((List.prefix_cons_inj home).mpr hfo)
    rw [HostTree.node?, this] at hnode
    cases hnode
  rcases List.prefix_or_prefix_of_prefix ho hf with hof | hfo
  · exact hc other hof (fun heq => hnone (heq ▸ List.prefix_rfl)) node hnode
  · exact absurd hfo hnone

/-- Making a directory puts nothing but a directory on any way. -/
theorem Confined.of_makeDirectory {d' : Disk} (h : d.Confined names)
    (hm : d.makeDirectory now path = .ok d') : d'.Confined names := by
  obtain ⟨way, -, hcreate⟩ := makeDirectory_eq_ok hm
  obtain ⟨place, -, htree⟩ := HostTree.create_eq_ok hcreate
  intro front hf hne node hnode
  rw [htree, HostTree.node?_touch] at hnode
  by_cases heq : home :: front = place
  · rw [heq, HostTree.node?_put_self] at hnode
    exact (Option.some.inj hnode).symm
  · rw [HostTree.node?_put_of_ne heq] at hnode
    exact h front hf hne node hnode

end Disk

/-! ## Tables -/

namespace Table

variable {t : Table} {now : Instant} (path : String)

theorem allowed_all (t : Table) : Allowed t.all := by
  unfold all
  split
  · exact allowed_ok _
  · exact allowed_error (by simp [Error.kind])

theorem allowed_key : Allowed (key path) := (allowed_read path).map _

theorem allowed_split : Allowed (split path) := (allowed_read path).bind fun _ _ => allowed_ok _

theorem allowed_find (t : Table) (key : String) : Allowed (t.find key) :=
  t.allowed_all.bind fun _ _ => allowed_ok _

theorem allowed_row (r : Row) : Allowed r.status := by
  refine (allowed_read _).bind fun _ _ => ?_
  cases r.target with
  | none => exact (allowed_ok _).bind fun _ _ => allowed_ok _
  | some text =>
    dsimp only
    split
    · exact (allowed_ok _).bind fun _ _ => allowed_ok _
    · exact (allowed_ok _).bind fun _ _ => allowed_ok _
    · exact ((allowed_read _).map _).bind fun _ _ => allowed_ok _

theorem allowed_status (t : Table) : Allowed (t.status path) := by
  refine (allowed_key path).bind fun key _ => .ite (allowed_ok _) ?_
  refine (t.allowed_find key).bind fun row? _ => ?_
  cases row? with
  | none => exact allowed_ok _
  | some row => exact (allowed_row row).bind fun _ _ => allowed_ok _

theorem allowed_findFile (t : Table) (key : String) : Allowed (t.findFile key) := by
  refine (t.allowed_find key).bind fun row? _ => ?_
  cases row? with
  | none => exact allowed_error (by simp [Error.kind])
  | some row => exact .ite (allowed_error (by simp [Error.kind])) (allowed_ok _)

theorem allowed_content (t : Table) : Allowed (t.content path) :=
  (allowed_key path).bind fun key _ => (t.allowed_findFile key).bind fun _ _ => allowed_ok _

theorem allowed_list (t : Table) : Allowed (t.list path) := by
  refine (allowed_key path).bind fun key _ => ?_
  have hlast : Allowed (t.children key >>= fun rows => rows.mapM Row.status) :=
    (t.allowed_all.bind fun _ _ => allowed_ok _).bind fun rows _ =>
      allowed_mapM fun row _ => allowed_row row
  refine .ite ((t.allowed_find key).bind fun row? _ => ?_) hlast
  split
  · exact hlast
  · exact allowed_error (by simp [Error.kind])

theorem allowed_insert (t : Table) (key : String) (kind : Kind) (content : Option Bytes)
    (target : Option String) : Allowed (t.insert now key kind content target) := by
  refine (t.allowed_find key).bind fun row? _ => .ite (allowed_error (by simp [Error.kind])) ?_
  exact (allowed_split key).bind fun _ _ => t.allowed_all.bind fun _ _ => allowed_ok _

theorem allowed_write (t : Table) (data : Bytes) (overwrite : Bool) :
    Allowed (t.write now path data overwrite) := by
  refine (allowed_key path).bind fun key _ => (t.allowed_find key).bind fun row? _ => ?_
  cases row? with
  | none => exact t.allowed_insert key _ _ _
  | some row =>
    exact .ite (allowed_error (by simp [Error.kind]))
      (.ite (allowed_error (by simp [Error.kind])) (allowed_ok _))

theorem allowed_append (t : Table) (data : Bytes) : Allowed (t.append now path data) :=
  (allowed_key path).bind fun key _ => (t.allowed_findFile key).bind fun _ _ => allowed_ok _

theorem allowed_makeDirectory (t : Table) : Allowed (t.makeDirectory now path) := by
  refine (allowed_key path).bind fun key _ => (allowed_split key).bind fun parts _ => ?_
  refine .ite ((t.allowed_find _).bind fun row? _ => ?_) (t.allowed_insert key _ _ _)
  split
  · exact t.allowed_insert key _ _ _
  · exact allowed_error (by simp [Error.kind])

theorem allowed_makeLink (t : Table) (target : String) :
    Allowed (t.makeLink now path target) :=
  (allowed_key path).bind fun key _ => t.allowed_insert key _ _ _

theorem allowed_remove (t : Table) (row : Row) (recursive : Bool) :
    Allowed (t.remove row recursive) := by
  refine t.allowed_all.bind fun rows _ => .ite (allowed_ok _) ?_
  refine Allowed.bind (t.allowed_all.bind fun _ _ => allowed_ok _) fun held _ => ?_
  exact .ite (allowed_error (by simp [Error.kind])) (allowed_ok _)

theorem allowed_delete (t : Table) (recursive : Bool) : Allowed (t.delete path recursive) := by
  refine (allowed_key path).bind fun key _ => (t.allowed_find key).bind fun row? _ => ?_
  cases row? with
  | none => exact allowed_ok _
  | some row => exact (t.allowed_remove row recursive).bind fun _ _ => allowed_ok _

theorem allowed_moveRow (r : Row) (path : String) : Allowed (moveRow r path) :=
  (allowed_split path).bind fun _ _ => allowed_ok _

theorem allowed_follow (source r : Row) (src dest : String) :
    Allowed (follow source src dest r) := by
  unfold follow
  exact .ite ((allowed_moveRow r _).bind fun _ _ => allowed_ok _) (allowed_ok _)

theorem allowed_moveRows (t : Table) (source : Row) (src dest : String) :
    Allowed (t.moveRows source src dest) := by
  refine .ite (allowed_ok _) (t.allowed_all.bind fun rows _ => ?_)
  refine (allowed_mapM fun r _ => allowed_follow source r src dest).bind fun pairs _ => ?_
  refine (allowed_moveRow source dest).bind fun moved _ => .ite (allowed_error ?_) (.ite ?_ ?_)
  · simp [Error.kind]
  · exact allowed_ok _
  · exact allowed_error (by simp [Error.kind])

theorem allowed_move (t : Table) (src dest : String) (overwrite : Bool) :
    Allowed (t.move src dest overwrite) := by
  refine (allowed_key src).bind fun S _ => (allowed_key dest).bind fun D _ =>
    (t.allowed_find S).bind fun source? _ => ?_
  cases source? with
  | none => exact allowed_error (by simp [Error.kind])
  | some source =>
  refine (t.allowed_find D).bind fun old? _ => ?_
  cases old? with
  | none => exact t.allowed_moveRows source S D
  | some old =>
    refine .ite ((t.allowed_remove old false).bind fun cleared _ => ?_)
      (allowed_error (by simp [Error.kind]))
    exact cleared.allowed_moveRows source S D

theorem allowed_stored (m : Moment) : Allowed (stored m) := by
  unfold stored
  exact .ite (allowed_ok _) (allowed_error (by simp [Error.kind]))

theorem allowed_setTimes (t : Table) (accessed modified : Option Moment) :
    Allowed (t.setTimes path accessed modified) := by
  have htime : ∀ time : Option Moment, Allowed (time.mapM stored) := fun time => by
    cases time with
    | none => exact allowed_ok _
    | some m => exact (allowed_stored m).map _
  refine (allowed_key path).bind fun key _ => .ite (allowed_ok _) ?_
  refine (t.allowed_find key).bind fun row? _ => ?_
  cases row? with
  | none => exact allowed_error (by simp [Error.kind])
  | some row =>
    exact (htime accessed).bind fun _ _ => (htime modified).bind fun _ _ => allowed_ok _

end Table

end MountSpace
