import MountSpace.Proofs.Session.Homes

/-!
# Roots in histories

The root of a mount stays a directory, and taking it away is refused, as long as no client gets a
deletion or a move of a misspelled root through.  A root is misspelled by a path that has names but
is read as a root, as one is whose only name is a blank.

## Main definitions

* `Scene.Refuses` — a deed that fails and leaves every store as it is.
* `Scene.TakesMisspelled` — a misspelled root is taken away, and not refused.

Main statement: `Scene.rooted_run_iff`.
-/

namespace MountSpace

open MountSpace.Path

namespace Session

variable {s : Session} {site after : Site} {raw : String}

/-! ## Requests -/

/-- **A request keeps the homes** when it takes away nothing that is read as a root. -/
theorem homesStay_after (hs : s.standpoint.Proper) {q : Request} {res : Except Error Answer}
    (hno : ∀ r, s.Takes site q r → ¬r.ReadsRoot) (h : (q.work s).eval site = (res, after)) :
    site.HomesStay after := by
  by_cases hremoves : q.Removes
  · cases q with
    | delete path recursive =>
      obtain ⟨done, h, -⟩ := Action.eval_return_cases h
      exact homesStay_delete hs hno h
    | move src dst overwrite =>
      obtain ⟨done, h, -⟩ := Action.eval_return_cases h
      exact homesStay_move hs hno h
    | _ => exact hremoves.elim
  · intro host hd
    have hkept := Request.keeps Disk.stable_homed s hremoves site host hd
    rwa [h] at hkept

/-! ## Roots that are spelled as such -/

theorem eval_delete_root {arg : PathArg} {path : Path} {r : Resolution} {status : Status}
    (hpath : s.qualified arg = .ok path) (hr : s.Resolves site path false r)
    (hstatus : r.status = some status) (hroot : r.path.isRoot = true) (recursive : Bool) :
    (s.delete arg recursive).eval site = (.error (.rootDeletion path.text),
      site.told (hopReports (s.trace site path false).hops)) := by
  have houtcome : (s.trace site path false).outcome = .ok r := hr
  unfold delete
  rw [Action.eval_bind, hpath, Action.eval_ofExcept]
  dsimp only
  rw [Action.eval_bind, Action.eval_attempt, eval_resolve, houtcome]
  dsimp only
  rw [hstatus]
  dsimp only
  rw [if_pos hroot]
  rfl

theorem eval_move_root {srcArg : PathArg} {path : Path} {r : Resolution} {status : Status}
    (hpath : s.qualified srcArg = .ok path) (hr : s.Resolves site path false r)
    (hstatus : r.status = some status) (hroot : r.path.isRoot = true) (dstArg : PathArg)
    (overwrite : Bool) :
    ∃ e events, (s.move srcArg dstArg overwrite).eval site = (.error e, site.told events) := by
  have houtcome : (s.trace site path false).outcome = .ok r := hr
  unfold move
  rw [Action.eval_bind, hpath, Action.eval_ofExcept]
  dsimp only
  rw [Action.eval_bind, Action.eval_ofExcept]
  cases hdst : s.qualified dstArg with
  | error e => exact ⟨e, [], by simp⟩
  | ok dst =>
  dsimp only
  rw [Action.eval_bind, eval_require, houtcome]
  dsimp only
  rw [hstatus]
  dsimp only
  rw [Action.eval_bind, eval_resolve]
  rw [Site.told_told]
  rcases (s.trace (site.told _) dst false).outcome with e | dest
  · exact ⟨e, _, rfl⟩
  dsimp only
  rw [if_pos hroot]
  split <;> exact ⟨_, _, rfl⟩

/-- A root that is spelled as one is not taken away, whether it is to be deleted or moved. -/
theorem refused_of_isRoot {q : Request} {r : Resolution} (ht : s.Takes site q r)
    (hroot : r.path.isRoot = true) :
    ∃ e events, (q.work s).eval site = (.error e, site.told events) := by
  cases ht with
  | @delete raw recursive path r status hpath hr hstatus =>
    have hdelete := eval_delete_root hpath hr hstatus hroot recursive
    refine ⟨.rootDeletion path.text, hopReports (s.trace site path false).hops, ?_⟩
    unfold Request.work
    dsimp only
    rw [Action.eval_map, hdelete]
    rfl
  | @move raw dst overwrite path r status hpath hr hstatus =>
    obtain ⟨e, events, hmove⟩ := eval_move_root hpath hr hstatus hroot (.text dst) overwrite
    refine ⟨e, events, ?_⟩
    unfold Request.work
    dsimp only
    rw [Action.eval_bind, hmove]

end Session

/-! ## Deeds -/

/-- Every disk and every table is as it was, with the times of all entries.  Reading is not seen in
the time at which an entry was last read, so what has only been read is as it was. -/
def Site.SameStores (site after : Site) : Prop :=
  (∀ host, after.disk host = site.disk host) ∧ ∀ T, after.table T = site.table T

namespace Scene

variable {scene : Scene} {deed : Deed} {client : ℕ} {q : Request} {r : Resolution}

/-- The deed fails, and every store is as it was. -/
def Refuses (scene : Scene) (deed : Deed) : Prop :=
  (∃ e, (scene.step deed).1 = .error e) ∧ scene.site.SameStores (scene.after deed).site

/-- A client takes away what is read as a root but has names, and is not refused.  Whether it is
refused depends on more than the path: a directory is deleted only if it is empty or may be deleted
with all below it, and a move may fail after its destination was cleared for it. -/
def TakesMisspelled (scene : Scene) (deed : Deed) : Prop :=
  ∃ client q r, deed = .request client q ∧ (scene.session client).Takes scene.site q r ∧
    r.ReadsRoot ∧ r.path.isRoot = false ∧ ¬scene.Refuses deed

/-- What is read as a root is refused, if it is spelled as one or does not get through. -/
theorem refuses_of_takes (hno : ¬scene.TakesMisspelled (.request client q))
    (ht : (scene.session client).Takes scene.site q r) (hroot : r.ReadsRoot) :
    scene.Refuses (.request client q) := by
  cases hspelled : r.path.isRoot with
  | false =>
    by_contra hthrough
    exact hno ⟨client, q, r, rfl, ht, hroot, hspelled, hthrough⟩
  | true =>
    obtain ⟨e, events, heval⟩ := Session.refused_of_isRoot ht hspelled
    refine ⟨⟨e, by rw [step, heval]⟩, ?_⟩
    rw [site_after_request, heval]
    exact ⟨fun _ => rfl, fun _ => rfl⟩

/-- **A deed keeps the homes** that takes no misspelled root away. -/
theorem Orderly.homesStay_after (h : scene.Orderly) (hno : ¬scene.TakesMisspelled deed) :
    scene.site.HomesStay (scene.after deed).site := by
  intro host
  refine keeps_after Disk.stable_homed (fun now _ hd => absurd hd (Disk.not_homed_homeless {} now))
    fun client q hdeed => ?_
  subst hdeed
  by_cases htaken : ∃ r, (scene.session client).Takes scene.site q r ∧ r.ReadsRoot
  · obtain ⟨r, ht, hroot⟩ := htaken
    have hsame := (refuses_of_takes hno ht hroot).2
    rw [← site_after_request]
    exact Site.homesStay_of_disk hsame.1 host
  · exact Session.homesStay_after (h.proper client) (fun r ht hroot => htaken ⟨r, ht, hroot⟩) rfl
      host

/-- **Roots last exactly as long as no misspelled root is taken away.**  However long a history is,
every root stays a directory, and whatever would delete or move one fails and changes nothing. -/
theorem rooted_run_iff (scene : Scene) (ho : scene.Opening)
    (hroots : ∀ m ∈ scene.registry.mounts, m.Rooted scene.site) (deeds : List Deed) :
    (∀ done deed, done ++ [deed] <+: deeds →
        (∀ m ∈ scene.registry.mounts, m.Rooted (scene.run (done ++ [deed])).site) ∧
        ∀ client q r, deed = .request client q →
          ((scene.run done).session client).Takes (scene.run done).site q r → r.ReadsRoot →
          (scene.run done).Refuses deed) ↔
      ∀ done deed, done ++ [deed] <+: deeds → ¬(scene.run done).TakesMisspelled deed := by
  constructor
  · rintro h done deed hpre ⟨client, q, r, hdeed, ht, hroot, -, hthrough⟩
    exact hthrough ((h done deed hpre).2 client q r hdeed ht hroot)
  · intro hno done deed hpre
    have hrooted : ∀ done, done <+: deeds →
        ∀ m ∈ scene.registry.mounts, m.Rooted (scene.run done).site := by
      intro done hdone
      induction done using List.reverseRecOn with
      | nil => exact hroots
      | append_singleton done deed ih =>
        rw [run_concat]
        intro m hm
        exact (ih ((List.prefix_append _ _).trans hdone) m hm).of_stay
          ((ho.orderly.run done).homesStay_after (hno done deed hdone))
    refine ⟨hrooted _ hpre, fun client q r hdeed ht hroot => ?_⟩
    subst hdeed
    exact refuses_of_takes (hno done _ hpre) ht hroot

/-- Clients at the root of an empty directory of the host. -/
def onHost : Scene where
  registry := Registry.add {} (.ofHost "h")
  maxLinks := 32
  standpoint := fun _ => ⟨(Mount.ofHost "h").capability.rootPath, (Mount.ofHost "h").capability⟩
  site := .emptyHost "h"

theorem onHost_opening : onHost.Opening := ⟨fun _ => rfl, rfl⟩

theorem onHost_rooted : ∀ m ∈ onHost.registry.mounts, m.Rooted onHost.site := by decide +kernel

/-- The root is spelled as such, and is neither deleted nor moved. -/
theorem rooted_run_iff_refused :
    let deeds : List Deed := [.request 0 (.makeDirectory "/d" false), .request 0 (.delete "/" true),
      .request 0 (.move "/d/.." "/e" true)]
    onHost.Opening ∧ (∀ m ∈ onHost.registry.mounts, m.Rooted onHost.site) ∧
      ((onHost.run (deeds.take 1)).step deeds[1]).1.toOption = none ∧
      ((onHost.run (deeds.take 2)).step deeds[2]).1.toOption = none ∧
      (∀ m ∈ onHost.registry.mounts, m.Rooted (onHost.run deeds).site) ∧
      ((∀ done deed, done ++ [deed] <+: deeds →
          (∀ m ∈ onHost.registry.mounts, m.Rooted (onHost.run (done ++ [deed])).site) ∧
          ∀ client q r, deed = .request client q →
            ((onHost.run done).session client).Takes (onHost.run done).site q r → r.ReadsRoot →
            (onHost.run done).Refuses deed) ↔
        ∀ done deed, done ++ [deed] <+: deeds → ¬(onHost.run done).TakesMisspelled deed) := by
  intro deeds
  exact ⟨onHost_opening, onHost_rooted, by decide +kernel, by decide +kernel, by decide +kernel,
    rooted_run_iff onHost onHost_opening onHost_rooted deeds⟩

/-- A root misspelled with a blank is deleted with all it holds. -/
theorem not_rooted_run_blank :
    let deeds : List Deed := [.request 0 (.makeDirectory "/d" false),
      .request 0 (.delete "/ /" true)]
    onHost.Opening ∧ (∀ m ∈ onHost.registry.mounts, m.Rooted onHost.site) ∧
      ((onHost.run (deeds.take 1)).step deeds[1]).1.toOption = some (.truth true) ∧
      ¬∀ m ∈ onHost.registry.mounts, m.Rooted (onHost.run deeds).site := by
  intro deeds
  exact ⟨onHost_opening, onHost_rooted, by decide +kernel, by decide +kernel⟩

end Scene

end MountSpace
