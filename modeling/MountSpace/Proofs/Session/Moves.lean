import MountSpace.Proofs.Session.Growth
import MountSpace.Proofs.Session.RootHistory
import MountSpace.Proofs.Session.TreeRequests
import MountSpace.Proofs.Store.Carried

/-!
# What moves lose

A client that asks for a move finds the stores as they were if it is refused, and what was at the
source at the destination if it is done.  A move loses something only when its two ends get in each
other's way: the client is asked whether they do by the names of the paths, but the store reads the
paths again from their texts.

## Main definitions

* `Mount.view`, `Mount.Tangled` — what a mount tells of its entries, and two paths that get in each
  other's way in it.
* `Session.Tangles` — a move that comes to its store with two such paths.
* `Session.EndsRooted` — a path that ends in a mount whose root is a directory.
* `Scene.LosesNothing` — a move that is refused without a trace or brings everything along.

Main statement: `Scene.losesNothing_run`.
-/

namespace MountSpace

open MountSpace.Path

/-! ## Moves in mounts -/

namespace Mount

variable {m : Mount} {site after : Site} {host name : String} {T : TableName}
variable {src dest : List String} {overwrite : Bool}

/-- What a mount tells of its entries. -/
def view (m : Mount) (site : Site) : View where
  status := m.statusIn site
  node? names := match m.backend.storage, m.table? with
    | .disk host, _ => (site.disk host).view.node? names
    | .table _, some T => (site.table T).view.node? names
    | .table _, none => none
  Fits names := match m.backend.storage, m.table? with
    | .disk host, _ => (site.disk host).view.Fits names
    | .table _, some T => (site.table T).view.Fits names
    | .table _, none => False

theorem view_disk (hs : m.backend.storage = .disk host) (site : Site) :
    m.view site = (site.disk host).view := by
  unfold view
  rw [hs]
  congr 1
  funext path
  exact statusIn_disk hs site path

theorem view_table (hT : m.table? = some T) (site : Site) :
    m.view site = (site.table T).view := by
  obtain ⟨name, hs⟩ := storage_of_table? hT
  unfold view
  rw [hs, hT]
  congr 1
  funext path
  exact statusIn_table hT site path

theorem view_congr (h : site.SameStores after) (m : Mount) : m.view after = m.view site := by
  have hd : after.disk = site.disk := funext h.1
  have ht : after.table = site.table := funext h.2
  unfold view statusIn Connection.statusIn
  rw [hd, ht]

/-- Making place at the destination would take from the source, in the store of the mount. -/
def Tangled (m : Mount) (site : Site) (src dest : List String) (overwrite : Bool) : Prop :=
  (∃ host, m.backend.storage = .disk host ∧ (site.disk host).Tangled src dest overwrite) ∨
    ∃ T, m.table? = some T ∧ (site.table T).Tangled src dest overwrite

/-- A move in a table is done as a whole, or leaves everything as it was. -/
theorem within_moveTable {src dest : String} (hs : m.backend.storage = .table name)
    {res : Except Error Unit}
    (h : (m.within fun c => c.move src dest overwrite).eval site = (res, after)) :
    (∃ e, res = .error e) ∧ site.SameStores after ∨
      ∃ T, m.table? = some T ∧ res = .ok () ∧
        (site.table T).move src dest overwrite = .ok (after.table T) := by
  have hwork := m.connection.move_onTable hs src dest overwrite
  have hrefused : ∀ e, (m.connection.move src dest overwrite).eval site = (.error e, site) →
      (∃ e, res = .error e) ∧ site.SameStores after := by
    intro e he
    rw [eval_within, he] at h
    obtain ⟨rfl, rfl⟩ := Prod.mk.inj h
    refine ⟨⟨e, rfl⟩, ?_⟩
    split <;> exact ⟨fun _ => rfl, fun _ => rfl⟩
  cases hT : m.table? with
  | none =>
    refine .inl (hrefused .sessionMissing ?_)
    rw [hwork, Action.eval_bind, eval_changeTable_of_none hT hs]
  | some T =>
  cases hop : (site.table T).move src dest overwrite with
  | error e =>
    refine .inl (hrefused e ?_)
    rw [hwork, Action.eval_bind, eval_changeTable hT hs, hop]
  | ok t =>
    obtain ⟨S, D, -, -, hS, hD, -⟩ := Table.moveRows_of_move hop
    rw [eval_within, hwork, Action.eval_bind, eval_changeTable hT hs, hop] at h
    dsimp only at h
    rw [hS, hD] at h
    cases h
    refine .inr ⟨T, rfl, rfl, ?_⟩
    rw [hop]
    congr 1
    exact (Site.table_setTable site T T t).trans (if_pos rfl) |>.symm

/-- **A mount refuses a move without a trace, or carries what it moves**, as long as its root is a
directory and the ends of the move do not get in each other's way. -/
theorem carried_of_move (hroot : m.Rooted site) (hg : ∀ host, (site.disk host).Grounded)
    (hS : ∀ n ∈ src, Ordinary n) (hD : ∀ n ∈ dest, Ordinary n)
    (hno : ¬m.Tangled site src dest overwrite) {st : Status}
    (hst : m.statusIn site (rootText src) = .ok (some st))
    (htop : ∀ T, m.table? = some T → settle dest = [] →
      ∀ row ∈ (site.table T).rows, row.parent ≠ "/") {res : Except Error Unit}
    (h : (m.within fun c => c.move (rootText src) (rootText dest) overwrite).eval site =
      (res, after)) :
    (∃ e, res = .error e) ∧ site.SameStores after ∨
      res = .ok () ∧ (m.view site).Carried (m.view after) src dest := by
  cases hs : m.backend.storage with
  | disk host =>
    have hwork := m.connection.move_onDisk hs (rootText src) (rootText dest) overwrite
    obtain ⟨hres, hd, ht⟩ := within_onDisk hwork h
    rcases hmove : (site.disk host).move site.now (rootText src) (rootText dest) overwrite
      with ⟨done, d⟩
    rw [hmove] at hres hd
    obtain rfl : done = res := hres
    rw [statusIn_disk hs] at hst
    rcases (hroot.homed hs).carried_of_move (hg host) hS hD
      (fun ht => hno (.inl ⟨host, hs, ht⟩)) hst hmove with ⟨hfailed, rfl⟩ | ⟨hdone, hcarried⟩
    · exact .inl ⟨hfailed, fun other =>
        (hd other).trans (ite_eq_right_iff.mpr fun heq => by rw [heq]), ht⟩
    · rw [view_disk hs, view_disk hs, hd, if_pos rfl]
      exact .inr ⟨hdone, hcarried⟩
  | table name =>
    refine (within_moveTable hs h).imp_right fun hmoved => ?_
    obtain ⟨T, hT, rfl, hop⟩ := hmoved
    refine ⟨rfl, ?_⟩
    rw [view_table hT, view_table hT]
    exact Table.carried_of_move hS hD (fun ht => hno (.inr ⟨T, hT, ht⟩)) (htop T hT) hop

end Mount

/-! ## Moves that clients ask for -/

namespace Session

variable {s : Session} {site after : Site} {src dst : String} {overwrite : Bool}

/-- A move that its client may ask for comes to its store with two paths that get in each other's
way there. -/
def Tangles (s : Session) (site : Site) (src dst : String) (overwrite : Bool) : Prop :=
  ∃ p q source dest, s.qualified (.text src) = .ok p ∧ s.qualified (.text dst) = .ok q ∧
    s.Resolves site p false source ∧ s.Resolves site q false dest ∧ source.mount = dest.mount ∧
    source.path.isRoot = false ∧ source.path ≠ dest.path ∧
    source.path.isAncestorOf dest.path = false ∧
    source.mount.Tangled site source.path.segments dest.path.segments overwrite

/-- What was at the end of one path is at the end of the other, as both were resolved before. -/
def Carried (s : Session) (site after : Site) (src dst : String) : Prop :=
  ∃ p q source dest, s.qualified (.text src) = .ok p ∧ s.qualified (.text dst) = .ok q ∧
    s.Resolves site p false source ∧ s.Resolves site q false dest ∧ source.mount = dest.mount ∧
    (source.mount.view site).Carried (source.mount.view after) source.path.segments
      dest.path.segments

/-- The mount at which a path ends reports its root as a directory. -/
def EndsRooted (s : Session) (site : Site) (path : String) : Prop :=
  ∀ p r, s.qualified (.text path) = .ok p → s.Resolves site p false r → r.mount.Rooted site

/-- **A client's move is refused without a trace, or carries what it moves.** -/
theorem carried_of_move (hs : s.standpoint.Proper) (hroot : s.EndsRooted site src)
    (hg : ∀ host, (site.disk host).Grounded) (hno : ¬s.Tangles site src dst overwrite)
    {res : Except Error Unit}
    (h : (s.move (.text src) (.text dst) overwrite).eval site = (res, after)) :
    (∃ e, res = .error e) ∧ site.SameStores after ∨
      res = .ok () ∧ s.Carried site after src dst := by
  rcases move_cases h with ⟨events, rfl, hfailed | ⟨hdone, p, q, source, dest, hp, hq, hsource,
    hdest, hlocation, hsame⟩⟩ | ⟨p, q, source, dest, status, events, hp, hq, hsource, hdest,
    hstatus, hlocation, hsegments, hother, hancestor, hold, hmove⟩
  · exact .inl ⟨hfailed, fun _ => rfl, fun _ => rfl⟩
  all_goals
    have hpc := complete_of_qualified hs hp
    have hqc := complete_of_qualified hs hq
    have hfrom := hsource.ending hpc.normal hpc.absolute
    have hto := hdest.ending hqc.normal hqc.absolute
    have hmount : source.mount = dest.mount := hfrom.mount_eq hto hlocation
  · refine .inr ⟨hdone, p, q, source, dest, hp, hq, hsource, hdest, hmount, ?_⟩
    have hstores : site.SameStores (site.told events) := ⟨fun _ => rfl, fun _ => rfl⟩
    rw [Mount.view_congr hstores, hsame]
    exact .refl _ _
  · rw [hfrom.localText_eq, hto.localText_eq] at hmove
    have htangled : ¬source.mount.Tangled site source.path.segments dest.path.segments
        overwrite := fun ht =>
      hno ⟨p, q, source, dest, hp, hq, hsource, hdest, hmount, hsegments, hother, hancestor, ht⟩
    have hstores : (site.told events).SameStores site := ⟨fun _ => rfl, fun _ => rfl⟩
    have hrooted : source.mount.Rooted (site.told events) := hroot p source hp hsource
    have hcases := Mount.carried_of_move hrooted hg hfrom.ordinary hto.ordinary htangled
      (hfrom.of_status hstatus).2 (fun T hT => hto.parent_ne_of_settle_nil (hmount ▸ hT) hold) hmove
    exact hcases.imp_right fun ⟨hdone, hcarried⟩ =>
      ⟨hdone, p, q, source, dest, hp, hq, hsource, hdest, hmount, hcarried⟩

end Session

/-! ## Moves in histories -/

theorem Disk.stable_grounded : Disk.Stable Disk.Grounded :=
  stable_of_amended fun hd ha => hd.of_edited (HostTree.edited_of_amended ha)

theorem Request.keeps_grounded (s : Session) (q : Request) : (q.work s).Keeps Disk.Grounded := by
  have hdelete : ∀ now d path recursive, Disk.Grounded d →
      (Disk.delete d now path recursive).2.Grounded := fun now d path recursive hd =>
    hd.of_edited (d.edited_delete (Q := fun _ => True) now path recursive)
  have hmove : ∀ now d src dest overwrite, Disk.Grounded d →
      (Disk.move d now src dest overwrite).2.Grounded := fun now d src dest overwrite hd =>
    hd.of_edited (d.edited_move (Q := fun _ => True) now src dest overwrite)
  by_cases hremoves : q.Removes
  swap
  · exact Request.keeps Disk.stable_grounded s hremoves
  cases q with
  | delete path recursive => exact (Session.keeps_delete hdelete _ _).map _
  | move src dst overwrite =>
    exact (Session.keeps_move hmove _ _ _).bind fun _ => (Work.quiet_pure _).keeps
  | _ => exact hremoves.elim

namespace Scene

/-- Trees stay grounded whatever happens. -/
theorem grounded_after (scene : Scene) (deed : Deed) {host : String}
    (hd : (scene.site.disk host).Grounded) : ((scene.after deed).site.disk host).Grounded := by
  exact keeps_after Disk.stable_grounded (fun _ now _ => Disk.grounded_homeless {} now)
    (fun client q _ hd => Request.keeps_grounded _ q scene.site host hd) hd

theorem grounded_run (scene : Scene) (deeds : List Deed) {host : String}
    (hd : (scene.site.disk host).Grounded) : ((scene.run deeds).site.disk host).Grounded := by
  induction deeds using List.reverseRecOn with
  | nil => exact hd
  | append_singleton deeds deed ih =>
    rw [run_concat]
    exact grounded_after _ deed ih

/-- A move that a client asks for is refused, and every store is as it was, or it is done, and what
was at the source is at the destination. -/
def LosesNothing (scene : Scene) (client : ℕ) (src dst : String) (overwrite : Bool) : Prop :=
  scene.Refuses (.request client (.move src dst overwrite)) ∨
    (scene.step (.request client (.move src dst overwrite))).1 = .ok .done ∧
      (scene.session client).Carried scene.site
        (scene.after (.request client (.move src dst overwrite))).site src dst

/-- **Moves lose nothing** as long as the two ends do not get in each other's way, and the root of
their mount is a directory: whatever has happened before, a client's move is refused and leaves
every store as it was, or brings the entry from where its source led to where its destination led,
with all that was below it.  What was reported below the source is reported at the same address
below the destination, unless its path there is too long to be asked for. -/
theorem losesNothing_run (scene : Scene) (ho : scene.Opening)
    (hg : ∀ host, (scene.site.disk host).Grounded) (deeds : List Deed)
    (client : ℕ) (src dst : String) (overwrite : Bool)
    (hroot : ((scene.run deeds).session client).EndsRooted (scene.run deeds).site src)
    (hno : ¬((scene.run deeds).session client).Tangles (scene.run deeds).site src dst overwrite) :
    (scene.run deeds).LosesNothing client src dst overwrite := by
  generalize hnow : scene.run deeds = now at hroot hno
  have hproper : (now.session client).standpoint.Proper :=
    hnow ▸ (ho.orderly.run deeds).proper client
  have hgrounded : ∀ host, (now.site.disk host).Grounded := fun host =>
    hnow ▸ scene.grounded_run deeds (hg host)
  rcases hmove : ((now.session client).move (.text src) (.text dst) overwrite).eval now.site
    with ⟨res, after⟩
  have hstep : ((Request.move src dst overwrite).work (now.session client)).eval now.site =
      (res.map fun _ => .done, after) := by
    unfold Request.work
    dsimp only
    rw [Action.eval_bind, hmove]
    cases res <;> rfl
  have hafter : (now.after (.request client (.move src dst overwrite))).site = after := by
    rw [site_after_request, hstep]
  unfold LosesNothing Refuses
  rw [hafter, step, hstep]
  rcases Session.carried_of_move hproper hroot hgrounded hno hmove with
    ⟨⟨e, rfl⟩, hsame⟩ | ⟨rfl, hcarried⟩
  · exact .inl ⟨⟨e, rfl⟩, hsame⟩
  · exact .inr ⟨rfl, hcarried⟩

/-- What lies below a directory with a longer name is kept, but its path can be too long for the
host. -/
example :
    let scene : Scene := { onHost with
      site := onHost.site.setDisk "h" (Disk.fresh { textBytes := some 31 } ⟨0⟩) }
    let now := scene.run [.request 0 (.makeDirectory "/d" false),
      .request 0 (.makeDirectory "/d/x" false), .request 0 (.move "/d" "/dddddddd" false)]
    (now.site.disk "h").tree.node? ["home", "dddddddd", "x"] = some .directory ∧
      (now.step (.request 0 (.linkStatus "/dddddddd"))).1.toOption.isSome = true ∧
      (now.step (.request 0 (.linkStatus "/dddddddd/x"))).1.toOption = none := by decide +kernel

theorem onHost_grounded : ∀ host, (onHost.site.disk host).Grounded := by
  intro host
  unfold Site.disk
  by_cases hh : host = "h"
  · subst hh
    exact Disk.grounded_fresh {} ⟨0⟩
  · have hother : (host == "h") = false := by simpa using hh
    have hnone : onHost.site.disks.lookup host = none := by
      simp [onHost, Site.emptyHost, List.lookup_cons, hother]
    rw [hnone]
    exact Disk.grounded_homeless {} _

/-- A file takes the place of another. -/
theorem losesNothing_run_replaced :
    let deeds : List Deed := [.request 0 (.createFile "/a" false false), .write 0 [104, 105],
      .close 0, .request 0 (.createFile "/b" false false)]
    let now := onHost.run deeds
    onHost.Opening ∧ (∀ host, (onHost.site.disk host).Grounded) ∧
      (now.session 0).EndsRooted now.site "/a" ∧
      ¬(now.session 0).Tangles now.site "/a" "/b" true ∧
      (((now.after (.request 0 (.move "/a" "/b" true))).site.disk "h").tree.node? ["home", "b"] =
        some (.file [104, 105])) ∧
      now.LosesNothing 0 "/a" "/b" true := by
  intro deeds now
  -- Where the two paths lead.
  have hend : ∀ name, name = "a" ∨ name = "b" → ∀ p r,
      (now.session 0).qualified (.text ("/" ++ name)) = .ok p →
      (now.session 0).Resolves now.site p false r →
      r.mount = .ofHost "h" ∧ r.path.segments = [name] := by
    intro name hname p r hp hr
    have hends : ((now.session 0).qualified (.text ("/" ++ name))).toOption.bind (fun p =>
        ((now.session 0).trace now.site p false).outcome.toOption.map fun r =>
          (r.mount, r.path.segments)) = some (.ofHost "h", [name]) := by
      rcases hname with rfl | rfl <;> decide +kernel
    rw [hp] at hends
    change ((now.session 0).trace now.site p false).outcome.toOption.map _ = _ at hends
    rw [show ((now.session 0).trace now.site p false).outcome = .ok r from hr] at hends
    exact Prod.mk.inj (Option.some.inj hends)
  have hroot : (now.session 0).EndsRooted now.site "/a" := by
    intro p r hp hr
    rw [(hend "a" (.inl rfl) p r hp hr).1]
    decide +kernel
  have hno : ¬(now.session 0).Tangles now.site "/a" "/b" true := by
    rintro ⟨p, q, source, dest, hp, hq, hsource, hdest, -, -, -, -, htangled⟩
    obtain ⟨hmount, hS⟩ := hend "a" (.inl rfl) p source hp hsource
    obtain ⟨-, hD⟩ := hend "b" (.inr rfl) q dest hq hdest
    rw [hmount, hS, hD] at htangled
    rcases htangled with ⟨host, -, -, hbelow, -⟩ | ⟨T, hT, -⟩
    · exact absurd hbelow (by decide +kernel)
    · cases hT
  exact ⟨onHost_opening, onHost_grounded, hroot, hno, by decide +kernel,
    losesNothing_run onHost onHost_opening onHost_grounded deeds 0 "/a" "/b" true hroot hno⟩

/-- A file is moved to its own path with a blank and a slash behind it, which the disk reads as the
same path, and is gone. -/
theorem not_losesNothing_blank :
    let deeds : List Deed := [.request 0 (.createFile "/a" false false), .write 0 [104, 105],
      .close 0]
    let now := onHost.run deeds
    onHost.Opening ∧ (∀ host, (onHost.site.disk host).Grounded) ∧
      (∀ m ∈ now.registry.mounts, m.Rooted now.site) ∧
      ((now.site.disk "h").tree.node? ["home", "a"] = some (.file [104, 105])) ∧
      ((now.after (.request 0 (.move "/a" "/a /" true))).site.disk "h").listing = [] ∧
      ¬now.LosesNothing 0 "/a" "/a /" true := by
  intro deeds now
  have hbefore : (now.site.disk "h").tree.node? ["home", "a"] = some (.file [104, 105]) := by
    decide +kernel
  have hafter : ((now.after (.request 0 (.move "/a" "/a /" true))).site.disk "h").tree.node?
      ["home", "a"] = none := by decide +kernel
  refine ⟨onHost_opening, onHost_grounded, by decide +kernel, hbefore, by decide +kernel, ?_⟩
  rintro (⟨-, hsame, -⟩ | ⟨hdone, -⟩)
  · rw [hsame "h", hbefore] at hafter
    cases hafter
  · have hfails : (now.step (.request 0 (.move "/a" "/a /" true))).1.toOption = none := by
      decide +kernel
    rw [hdone] at hfails
    cases hfails

end Scene

end MountSpace
