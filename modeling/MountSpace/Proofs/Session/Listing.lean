import MountSpace.Proofs.Session.LinkTargets
import MountSpace.Proofs.Session.ReportedTargets
import MountSpace.Proofs.Store.Listing

/-!
# What a client is told of a directory

A directory is listed through its store, which goes through what it holds; a single entry is looked
up by a walk to its path.  As long as the entries of the store are coherent both tell the same:
every name in the list can be looked up, every name that can be looked up is in the list, and the
reports agree in all they say.

## Main definitions

* `Mount.Filed` — the entries that a mount keeps are coherent.
* `Mount.namesIn` — the names that a mount keeps in a directory.

Main statement: `Session.list_agrees`.
-/

namespace MountSpace

open MountSpace.Path

/-- Entries of different names that are sorted by name are in strictly increasing order. -/
theorem Status.strictly_sorted {found : List Status}
    (h : ((found.mergeSort fun a b => a.path.name ≤ b.path.name).map (·.path.name)).Nodup) :
    (found.mergeSort fun a b => a.path.name ≤ b.path.name).Pairwise
      fun a b => a.path.name < b.path.name := by
  have hsorted : (found.mergeSort fun a b => a.path.name ≤ b.path.name).Pairwise
      fun a b => a.path.name ≤ b.path.name := by
    refine (List.pairwise_mergeSort ?_ ?_ found).imp fun hle => by simpa using hle
    · intro a b c hab hbc
      simp only [decide_eq_true_eq] at hab hbc ⊢
      exact String.le_trans hab hbc
    · intro a b
      simpa using String.le_total a.path.name b.path.name
  exact (hsorted.and (List.pairwise_map.mp h)).imp fun ⟨hle, hne⟩ =>
    String.not_le.mp fun hge => hne (String.le_antisymm hle hge)

/-! ## Mounts -/

namespace Mount

variable {m : Mount} {site : Site} {dirs : List String} {st : Status} {entries : List Status}

/-- The entries that the mount keeps are coherent. -/
def Filed (m : Mount) (site : Site) : Prop :=
  match m.backend.storage with
  | .disk host => (site.disk host).tree.Filed
  | .table _ => ∀ T, m.table? = some T → (site.table T).Filed

/-- The names that the mount keeps in the directory at a path. -/
def namesIn (m : Mount) (site : Site) (path : String) : List String :=
  match m.backend.storage with
  | .disk host =>
    match (site.disk host).place? path with
    | some place => ((site.disk host).tree.childrenOf place).map Prod.fst
    | none => []
  | .table _ =>
    match m.table? with
    | some T => ((site.table T).rows.filter (·.parent == path)).map Row.name
    | none => []

/-- A mount lists a directory with what it reports below it. -/
theorem listed (hf : m.Filed site) (hd : Table.Plain dirs)
    (hs : m.statusIn site (rootText dirs) = .ok (some st)) (hk : st.kind = .directory)
    (hnames : ∀ n ∈ m.namesIn site (rootText dirs), ¬EndsBlank n)
    (hl : ((m.connection.list (rootText dirs)).eval site).1 = .ok entries) :
    Listed (m.statusIn site) dirs entries := by
  rcases m.storage_cases hs with ⟨host, hdisk⟩ | ⟨T, hT⟩
  · have hstatus : m.statusIn site = (site.disk host).status :=
      funext fun path => statusIn_disk hdisk site path
    rw [hstatus] at hs ⊢
    rw [list_disk hdisk] at hl
    obtain ⟨place, hleads⟩ := Disk.leads_of_status hd hs hk
    simp only [Filed, hdisk] at hf
    simp only [namesIn, hdisk, hleads.place?_eq, List.mem_map] at hnames
    exact Disk.listed hf hleads (fun e he => hnames e.1 ⟨e, he, rfl⟩) hl
  · have hstatus : m.statusIn site = (site.table T).status :=
      funext fun path => statusIn_table hT site path
    obtain ⟨name, htable⟩ := storage_of_table? hT
    rw [hstatus]
    rw [list_table hT] at hl
    simp only [Filed, htable] at hf
    exact Table.listed (hf T hT) hd hl

end Mount

/-! ## Clients -/

namespace Session

variable {s : Session} {site after : Site} {arg : PathArg} {path : Path} {r : Resolution}
variable {m : Mount} {dirs : List String} {name : String} {st e : Status} {listed : List Status}

/-- An entry is reported under the path that it is located at. -/
theorem path_of_located (h : located st path = .ok e) : e.path = path := by
  unfold located at h
  split at h
  · obtain ⟨target, -, h⟩ := bind_eq_ok.mp h
    cases h
    rfl
  · cases h
    rfl

/-- What is told of a name in a directory is what its mount reports there. -/
theorem eval_linkStatus_child (ho : ∀ n ∈ dirs ++ [name], Ordinary n)
    (hc : (s.atlas site).Confirmed m dirs)
    (hl : s.registry.lookup (m.place dirs) (m.place dirs) = .ok m) :
    ((s.linkStatus (.path (m.place (dirs ++ [name])))).eval site).1 = .ok e ↔
      ∃ st, m.statusIn site (rootText (dirs ++ [name])) = .ok (some st) ∧
        located st (m.place (dirs ++ [name])) = .ok e := by
  set place := m.place (dirs ++ [name])
  have hq : s.qualified (.path place) = .ok place :=
    congrArg Except.ok (Standpoint.complete_of_isStated (m.place_isStated _))
  have hlstat : (s.atlas site).lstat m (dirs ++ [name]) =
      m.statusIn site (rootText (dirs ++ [name])) := rfl
  have hleg := Atlas.leg_last ho hc (Atlas.lookup_place hl (dirs ++ [name]) place)
  rw [hlstat] at hleg
  rw [eval_linkStatus_fst hq, trace_of_isStated (m.place_isStated _)]
  cases hs : m.statusIn site (rootText (dirs ++ [name])) with
  | error cause =>
    rw [hs] at hleg
    rw [Atlas.trace_of_error hleg]
    simp [reported, bind, Except.bind]
  | ok found =>
    rw [hs] at hleg
    rw [Atlas.trace_of_arrived hleg]
    cases found with
    | none => simp [reported, bind, Except.bind, throw, throwThe, MonadExceptOf.throw]
    | some st => simp [reported, bind, Except.bind, place]

section Directory

variable {follow : Bool} (h : s.Ending site follow r)

include h

/-- Directories lead to a directory at the end of a path, which is one of them. -/
theorem Ending.confirmed_of_directory (hst : r.status = some st) (hk : st.kind = .directory) :
    (s.atlas site).Confirmed r.mount r.path.segments := by
  obtain ⟨hparent, hlstat⟩ := h.of_status hst
  intro front hf hne
  by_cases heq : front = r.path.segments
  · rw [heq]
    exact ⟨st, hlstat, hk⟩
  · exact (h.reported hparent).2 front (OnTheWay.prefix_dropLast ⟨hf, heq⟩) hne

theorem Ending.child_eq (ho : Ordinary name) :
    r.path.child [name] = r.mount.place (r.path.segments ++ [name]) := by
  conv_lhs => rw [h.path_eq]
  exact r.mount.place_child h.ordinary (by simpa using ho)

/-- What is told of a name in the directory at the end of a path. -/
theorem Ending.eval_linkStatus_child (hst : r.status = some st) (hk : st.kind = .directory)
    (ho : Ordinary name) :
    ((s.linkStatus (.path (r.path.child [name]))).eval site).1 = .ok e ↔
      ∃ st, r.mount.statusIn site (rootText (r.path.segments ++ [name])) = .ok (some st) ∧
        located st (r.path.child [name]) = .ok e := by
  have hordinary : ∀ n ∈ r.path.segments ++ [name], Ordinary n :=
    List.forall_mem_append.mpr ⟨h.ordinary, by simpa using ho⟩
  rw [h.child_eq ho]
  exact Session.eval_linkStatus_child hordinary (h.confirmed_of_directory hst hk)
    (Atlas.lookup_place h.owner _ _)

/-- An entry that is located in the directory keeps its name. -/
theorem Ending.name_of_located (ho : Ordinary st.path.name)
    (hlocated : located st (r.path.child [st.path.name]) = .ok e) :
    e.path.name = st.path.name := by
  rw [path_of_located hlocated, h.child_eq ho]
  simp [Path.name]

end Directory

/-- The entries of a sorted list are those that have been located. -/
theorem mem_sorted_iff {entries found : List Status} {f : Status → Except Error Status}
    (hmap : entries.mapM f = .ok found) :
    e ∈ found.mergeSort (fun a b => a.path.name ≤ b.path.name) ↔ ∃ st ∈ entries, f st = .ok e := by
  rw [List.mem_mergeSort]
  refine ⟨exists_of_mem_mapM hmap, ?_⟩
  rintro ⟨st, hin, hlocated⟩
  obtain ⟨other, hother, heq⟩ := forall_of_mapM hmap hin
  rwa [Except.ok.inj (hlocated.symm.trans heq)]

/-- **Listing a directory agrees with looking up its entries.**  The path leads to a directory of a
store whose entries are coherent, and neither the names on the way to it nor those in it end with
a blank.  Whenever it is listed, the names are in strictly increasing order, a name is among them
exactly if it can be looked up in the directory, and each entry is told of just as it is told of
when it is looked up. -/
theorem list_agrees (hs : s.standpoint.Proper) (harg : ∀ p, arg.read = .ok p → p.Normal)
    (hq : s.qualified arg = .ok path) (hr : s.Resolves site path true r)
    (hst : r.status = some st) (hk : st.kind = .directory) (hf : r.mount.Filed site)
    (hd : ∀ n ∈ r.path.segments, ¬EndsBlank n)
    (hnames : ∀ n ∈ r.mount.namesIn site r.path.localText, ¬EndsBlank n)
    (hl : (s.list arg).eval site = (.ok listed, after)) :
    listed.Pairwise (fun a b => a.path.name < b.path.name) ∧
    (∀ name, Ordinary name → ¬EndsBlank name →
      ((∃ e ∈ listed, e.path.name = name) ↔
        ∃ e, ((s.linkStatus (.path (r.path.child [name]))).eval site).1 = .ok e)) ∧
    ∀ e ∈ listed, ((s.linkStatus (.path (r.path.child [e.path.name]))).eval site).1 = .ok e := by
  have hpath := complete_of_arg hs harg hq
  have hend := hr.ending hpath.normal hpath.absolute
  have hlstat := (hend.of_status hst).2
  have hplain : Table.Plain r.path.segments := fun n hn => ⟨hend.ordinary n hn, hd n hn⟩
  -- The list is what the mount lists, located in the directory and sorted.
  have hlist := eval_list_directory hq hr hst hk
  rw [hl, hend.localText_eq] at hlist
  obtain ⟨entries, hentries, hlist⟩ := bind_eq_ok.mp hlist.symm
  obtain ⟨found, hmap, rfl⟩ := map_eq_ok.mp hlist
  rw [hend.localText_eq] at hnames
  have hlisted := Mount.listed hf hplain hlstat hk hnames hentries
  have hname : ∀ st ∈ entries, ∀ e, located st (r.path.child [st.path.name]) = .ok e →
      e.path.name = st.path.name :=
    fun st hin e => hend.name_of_located (hlisted.plain st hin).1
  refine ⟨?_, fun name ho hblank => ⟨?_, ?_⟩, fun e he => ?_⟩
  · refine Status.strictly_sorted ?_
    rw [((List.mergeSort_perm _ _).map _).nodup_iff, map_eq_of_mapM hmap hname]
    exact hlisted.nodup
  · rintro ⟨e, he, rfl⟩
    obtain ⟨st, hin, hlocated⟩ := (mem_sorted_iff hmap).mp he
    rw [hname st hin e hlocated] at ho hblank ⊢
    exact ⟨e, (hend.eval_linkStatus_child hst hk ho).mpr
      ⟨st, (hlisted.reported _ st ho hblank).mp ⟨hin, rfl⟩, hlocated⟩⟩
  · rintro ⟨e, he⟩
    obtain ⟨st, hreported, hlocated⟩ := (hend.eval_linkStatus_child hst hk ho).mp he
    obtain ⟨hin, rfl⟩ := (hlisted.reported name st ho hblank).mpr hreported
    exact ⟨e, (mem_sorted_iff hmap).mpr ⟨st, hin, hlocated⟩, hname st hin e hlocated⟩
  · obtain ⟨st, hin, hlocated⟩ := (mem_sorted_iff hmap).mp he
    obtain ⟨ho, hblank⟩ := hlisted.plain st hin
    rw [hname st hin e hlocated]
    exact (hend.eval_linkStatus_child hst hk ho).mpr
      ⟨st, (hlisted.reported _ st ho hblank).mp ⟨hin, rfl⟩, hlocated⟩

/-- The directory `/d` holds a link, and `/k` is a link to the directory. -/
def hostWithEntry : Site :=
  let work : Work Unit := do
    (alone (.ofHost "h")).makeDirectory (.text "/d") false
    (alone (.ofHost "h")).makeLink (.text "/f") (.text "/d/e") false
    (alone (.ofHost "h")).makeLink (.text "d") (.text "/k") false
  (work.eval (.emptyHost "h")).2

/-- The directory is listed under the link to it. -/
theorem list_agrees_behind_link :
    let s := alone (.ofHost "h")
    let path : Path := ⟨⟨some "file", none⟩, ["k"], true⟩
    s.standpoint.Proper ∧ (∀ p, PathArg.read (.text "/k") = .ok p → p.Normal) ∧
    s.qualified (.text "/k") = .ok path ∧
    ∃ r st listed after, s.Resolves hostWithEntry path true r ∧ r.status = some st ∧
      st.kind = .directory ∧ r.mount.Filed hostWithEntry ∧
      (∀ n ∈ r.path.segments, ¬EndsBlank n) ∧
      (∀ n ∈ r.mount.namesIn hostWithEntry r.path.localText, ¬EndsBlank n) ∧
      (s.list (.text "/k")).eval hostWithEntry = (.ok listed, after) ∧
      listed.map (fun e => (e.path.name, e.kind)) = [("e", .link)] ∧
      listed.Pairwise (fun a b => a.path.name < b.path.name) ∧
      (∀ name, Ordinary name → ¬EndsBlank name →
        ((∃ e ∈ listed, e.path.name = name) ↔
          ∃ e, ((s.linkStatus (.path (r.path.child [name]))).eval hostWithEntry).1 = .ok e)) ∧
      ∀ e ∈ listed,
        ((s.linkStatus (.path (r.path.child [e.path.name]))).eval hostWithEntry).1 = .ok e := by
  intro s path
  have hs : s.standpoint.Proper := Capability.rootPath_complete _
  have harg : ∀ p, PathArg.read (.text "/k") = .ok p → p.Normal := PathArg.normal_of_text
  have hq : s.qualified (.text "/k") = .ok path := by decide +kernel
  have hend : (s.trace hostWithEntry path true).outcome.toOption.map
      (fun r => (r.path, r.mount, r.status.map Status.kind)) =
        some (⟨⟨some "file", none⟩, ["d"], true⟩, .ofHost "h", some .directory) := by
    decide +kernel
  have hlist : ((s.list (.text "/k")).eval hostWithEntry).1.toOption.map
      (fun listed => listed.map fun e => (e.path.name, e.kind)) =
        some [("e", .link)] := by decide +kernel
  have htree : (hostWithEntry.disk "h").tree.Filed := by decide +kernel
  have hblank : ∀ n ∈ (Mount.ofHost "h").namesIn hostWithEntry "/d", ¬EndsBlank n := by
    decide +kernel
  cases hr : (s.trace hostWithEntry path true).outcome with
  | error e =>
    rw [hr] at hend
    cases hend
  | ok r =>
  rw [hr] at hend
  obtain ⟨hpath, hmount, hkind⟩ : r.path = ⟨⟨some "file", none⟩, ["d"], true⟩ ∧
      r.mount = .ofHost "h" ∧ r.status.map Status.kind = some .directory := by
    simpa [Except.toOption] using hend
  obtain ⟨st, hst, hk⟩ := Option.map_eq_some_iff.mp hkind
  rcases heval : (s.list (.text "/k")).eval hostWithEntry with ⟨outcome, after⟩
  rw [heval] at hlist
  cases outcome with
  | error e => cases hlist
  | ok listed =>
  have hfiled : r.mount.Filed hostWithEntry := by
    rw [hmount]
    exact htree
  have hd : ∀ n ∈ r.path.segments, ¬EndsBlank n := by
    rw [hpath]
    decide
  have hnames : ∀ n ∈ r.mount.namesIn hostWithEntry r.path.localText, ¬EndsBlank n := by
    rw [hmount, hpath]
    exact hblank
  exact ⟨hs, harg, hq, r, st, listed, after, hr, hst, hk, hfiled, hd, hnames, rfl,
    by simpa [Except.toOption] using hlist,
    list_agrees hs harg hq hr hst hk hfiled hd hnames heval⟩

end Session

end MountSpace
