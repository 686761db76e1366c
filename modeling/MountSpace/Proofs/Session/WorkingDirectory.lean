import MountSpace.Proofs.Session.Composition
import MountSpace.Proofs.Session.FollowPolicy
import MountSpace.Proofs.Session.TreeHistory

/-!
# The working directory

A change of the working directory stores the path that was given or, on a backend that follows
links there, the path that they lead to.  Names given afterwards are appended to what was stored
and resolved afresh.  Either way they lead where they would have led below the path that was given,
except that fewer links may be left to follow on the way: what failed for too many links before may
succeed afterwards.

## Main definitions

* `Visit` — a change of the working directory: the mounts and what they hold then, and the path.
* `Visit.next`, `Standpoint.roam` — where a client stands after a visit, and after several.
* `PathArg.Below` — a path that is given afterwards, and one that says the same before.

Main statements: `Standpoint.proper_roam`, `Visit.same_below`.
-/

namespace MountSpace

/-! ## Visits -/

/-- Where a client of a default backend stands first. -/
def Capability.threshold (c : Capability) : Standpoint := ⟨c.rootPath, c⟩

/-- A change of the working directory. -/
structure Visit where
  /-- The mounts at the time. -/
  registry : Registry
  /-- The most links that one path may lead through. -/
  maxLinks : ℕ
  /-- What the mounts hold at the time. -/
  site : Site
  /-- The path that is given. -/
  arg : PathArg

namespace Visit

variable (v : Visit) (at_ : Standpoint)

/-- What the client works with. -/
def session : Session := ⟨v.registry, v.maxLinks, at_⟩

/-- What the change comes to. -/
def outcome : Except Error Path := (((v.session at_).changeDirectory v.arg).eval v.site).1

/-- The site after the change. -/
def siteAfter : Site := (((v.session at_).changeDirectory v.arg).eval v.site).2

/-- Where the client stands afterwards. -/
def next : Standpoint :=
  match v.outcome at_ with
  | .ok dir => { at_ with workingDirectory := dir }
  | .error _ => at_

/-- The path that is given is in normal form, as every text is that can be read. -/
def Normal : Prop := ∀ p, v.arg.read = .ok p → p.Normal

variable {v at_} {dir : Path}

theorem next_of_ok (h : v.outcome at_ = .ok dir) :
    v.next at_ = { at_ with workingDirectory := dir } := by
  rw [next, h]

theorem next_of_error {e : Error} (h : v.outcome at_ = .error e) : v.next at_ = at_ := by
  rw [next, h]

/-- Only the working directory changes. -/
theorem capability_next (v : Visit) (at_ : Standpoint) :
    (v.next at_).capability = at_.capability := by
  rw [next]
  split <;> rfl

/-- Nothing but reports is left behind. -/
theorem siteAfter_agrees (v : Visit) (at_ : Standpoint) : (v.siteAfter at_).Agrees v.site := by
  obtain ⟨events, hsite⟩ := (v.session at_).quiet_changeDirectory v.arg v.site
  rw [siteAfter, hsite]
  exact .told _ _

/-- A change that succeeds ends at a directory, and gives its path or the one that was given. -/
theorem outcome_eq_ok (h : v.outcome at_ = .ok dir) :
    ∃ path r, (v.session at_).qualified v.arg = .ok path ∧
      (v.session at_).Resolves v.site path true r ∧ (dir = r.path ∨ dir = path) := by
  have hwork : ((v.session at_).changeDirectory v.arg).eval v.site =
      (.ok dir, v.siteAfter at_) := Prod.ext h rfl
  obtain ⟨path, r, -, hpath, hr, -, -, hdir⟩ := Session.changeDirectory_eq_ok hwork
  exact ⟨path, r, hpath, hr, hdir⟩

theorem proper_next (hv : v.Normal) (hat : at_.Proper) : (v.next at_).Proper := by
  cases h : v.outcome at_ with
  | error e => rwa [next_of_error h]
  | ok dir =>
    obtain ⟨path, r, hpath, hr, hdir⟩ := outcome_eq_ok h
    rw [next_of_ok h]
    exact hr.complete_of_eq (Session.complete_of_arg hat hv hpath) hdir

end Visit

/-- Where a client stands after visits, made one after the other. -/
def Standpoint.roam (at_ : Standpoint) (visits : List Visit) : Standpoint :=
  visits.foldl (fun at_ v => v.next at_) at_

/-- Wherever a client goes, its working directory is a complete path. -/
theorem Standpoint.proper_roam {at_ : Standpoint} {visits : List Visit}
    (hvisits : ∀ v ∈ visits, v.Normal) (hat : at_.Proper) : (at_.roam visits).Proper := by
  induction visits generalizing at_ with
  | nil => exact hat
  | cons v visits ih =>
    exact ih (fun w hw => hvisits w (by simp [hw]))
      (v.proper_next (hvisits v (by simp)) hat)

/-- In a history, a request to change the directory is a visit. -/
theorem Scene.standpoint_after_visit (scene : Scene) (client : ℕ) (raw : String) :
    (scene.after (.request client (.changeDirectory raw))).standpoint client =
      Visit.next ⟨scene.registry, scene.maxLinks, scene.site, .text raw⟩
        (scene.standpoint client) := by
  rw [Scene.after, Scene.step, Request.work, Action.eval_map, Visit.next, Visit.outcome]
  unfold Visit.session Scene.session
  dsimp only
  rcases (Session.changeDirectory _ _).eval scene.site with ⟨e | dir, site⟩
  · rfl
  · exact Function.update_self ..

/-! ## Names below a working directory -/

namespace Session

variable {s : Session} {site : Site} {path dir : Path} {names : List String} {r : Resolution}

/-- Below the end of a path, names lead where they lead below the path, unless there they lead
over too many links. -/
theorem Resolves.meetsAt_child (hr : s.Resolves site path true r) (hpath : path.Complete)
    (hne : names ≠ []) (ho : ∀ n ∈ names, Ordinary n) (follow : Bool) :
    MeetsAt (· = .cyclicLink) s s site follow (r.path.child names) (path.child names) := by
  have hbelow : (path.child names).location.isStated = true := hpath.stated
  have hend : (r.path.child names).location.isStated = true := Atlas.isStated_of_resolve hr
  rcases htrace : s.trace site path true with ⟨hops, outcome⟩
  obtain rfl : outcome = .ok r := by rw [Resolves, htrace] at hr; exact hr
  rw [trace_of_isStated hpath.stated] at htrace
  rw [MeetsAt, trace_of_isStated hbelow, trace_of_isStated hend]
  have hfollow : true = true → follow = true ∨ names ≠ [] := fun _ => .inr hne
  have hchild := Atlas.outcome_trace_child (s.targetsNormal site) (path.child names)
    hpath.absolute (hpath.normal.ordinary hpath.absolute) ho hfollow htrace
    (Atlas.length_hops_le htrace)
  refine or_iff_not_imp_left.mpr fun hfew => ?_
  -- the walks from the end have links to spare
  have hmore := Atlas.outcome_trace_mono hchild.symm
    (fun e he hk => hfew ⟨e, he, hk⟩) (Nat.sub_le _ _)
  rw [← hmore]
  exact Atlas.trace_alike _ _ follow _ _

end Session

/-- A path that is given from a working directory, and one that says the same from anywhere:
relative names and the same names below `dir`, or twice a path that starts at a root. -/
inductive PathArg.Below (dir : Path) : PathArg → PathArg → Prop
  | relative {arg : PathArg} {names : List String} (hread : arg.read = .ok ⟨{}, names, false⟩)
    (hne : names ≠ []) (ho : ∀ n ∈ names, Ordinary n) : Below dir arg (.path (dir.child names))
  | rooted {arg : PathArg} (h : ∀ p, arg.read = .ok p → p.absolute = true) : Below dir arg arg

namespace Visit

variable {v : Visit} {at_ : Standpoint} {dir path : Path}

theorem trace_next (v : Visit) (at_ : Standpoint) (site : Site) (p : Path) (follow : Bool) :
    (v.session (v.next at_)).trace site p follow = (v.session at_).trace site p follow := by
  rw [next]
  split <;> rfl

/-- A path that starts at a root is completed alike everywhere. -/
theorem qualified_rooted {arg : PathArg} (h : ∀ p, arg.read = .ok p → p.absolute = true) :
    (v.session (v.next at_)).qualified arg = (v.session at_).qualified arg := by
  unfold Session.qualified
  cases hread : arg.read with
  | error e => rfl
  | ok p =>
    refine congrArg Except.ok ?_
    unfold session
    dsimp only
    simp only [Standpoint.complete, Standpoint.makeAbsolute, h p hread, Bool.true_or, if_true,
      Standpoint.qualify, capability_next]

/-- Relative names are completed to names below the new working directory. -/
theorem qualified_names (hok : v.outcome at_ = .ok dir) (hdir : dir.Complete) {arg : PathArg}
    {names : List String} (hread : arg.read = .ok ⟨{}, names, false⟩) :
    (v.session (v.next at_)).qualified arg = .ok (dir.child names) := by
  rw [Session.qualified, hread, next_of_ok hok]
  exact congrArg Except.ok (Standpoint.complete_of_relative hdir.stated rfl rfl)

/-- What is named below the new working directory was named below the path of the visit. -/
theorem meets_below (hv : v.Normal) (hat : at_.Proper) (hok : v.outcome at_ = .ok dir) :
    ∃ path, (v.session at_).qualified v.arg = .ok path ∧
      ∀ arg other : PathArg, arg.Below path other → ∀ follow,
        Session.Meets (· = .cyclicLink) (v.session (v.next at_)) (v.session at_) v.site follow
          arg other := by
  obtain ⟨path, r, hpath, hr, hdir⟩ := outcome_eq_ok hok
  have hcomplete := Session.complete_of_arg hat hv hpath
  refine ⟨path, hpath, fun arg other hbelow follow => ?_⟩
  have hsame : ∀ p, Session.MeetsAt (· = .cyclicLink) (v.session (v.next at_)) (v.session at_)
      v.site follow p p := fun p => .inr <| by
    rw [trace_next]
    exact .of_refl (fun _ => rfl) _
  unfold Session.Meets
  cases hbelow with
  | rooted hroot =>
    rw [qualified_rooted hroot]
    exact .of_refl hsame _
  | @relative names hread hne ho =>
    have hother : (v.session at_).qualified (.path (path.child names)) = .ok (path.child names) :=
      congrArg Except.ok (Standpoint.complete_of_isStated hcomplete.stated)
    rw [qualified_names hok (hr.complete_of_eq hcomplete hdir) hread, hother]
    refine .ok ?_
    rcases hdir with rfl | rfl
    · rw [Session.MeetsAt, trace_next]
      exact hr.meetsAt_child hcomplete hne ho follow
    · exact hsame _

/-- **Going on relatively.**  Wherever a client has been before, a change of its working directory
that fails leaves it where it stands.  After one that succeeds it stands at a complete path, and so
it does after any other changes.  There, whatever it asks for by names below the working directory
comes to the same as what it asks for before the change by those names below the path that was
given, completed then; unless that fails for too many links. -/
theorem same_below (c : Capability) (visits : List Visit) (v : Visit)
    (hvisits : ∀ w ∈ visits ++ [v], w.Normal) :
    let before := c.threshold.roam visits
    let s := v.session before
    let s' := v.session (v.next before)
    (∀ e, v.outcome before = .error e → v.next before = before) ∧
    ∀ dir, v.outcome before = .ok dir →
      (v.next before).workingDirectory = dir ∧ dir.Complete ∧
      (∀ later : List Visit, (∀ w ∈ later, w.Normal) →
        ((v.next before).roam later).workingDirectory.Complete) ∧
      ∃ path, s.qualified v.arg = .ok path ∧ path.Complete ∧
        ∀ (arg other : PathArg) (errand errand' : Errand), arg.Below path other →
          errand.Beside (PathArg.Below path) errand' →
          FailsAs (· = .cyclicLink) ((errand'.work s other).eval v.site).1 ∨
          SameOutcome (fun x y : Answer => x.unnamed = y.unnamed)
              ((errand.work s' arg).eval (v.siteAfter before)).1
              ((errand'.work s other).eval v.site).1 ∧
            ((errand.work s' arg).eval (v.siteAfter before)).2.Agrees
              ((errand'.work s other).eval v.site).2 := by
  intro before s s'
  have hv : v.Normal := hvisits v (by simp)
  have hbefore : before.Proper :=
    Standpoint.proper_roam (fun w hw => hvisits w (by simp [hw])) c.rootPath_complete
  have hnext : (v.next before).Proper := v.proper_next hv hbefore
  refine ⟨fun e => next_of_error, fun dir hok => ?_⟩
  obtain ⟨path, hpath, hmeets⟩ := meets_below hv hbefore hok
  have hdir : (v.next before).workingDirectory = dir := by rw [next_of_ok hok]
  refine ⟨hdir, hdir ▸ hnext, fun later hlater => Standpoint.proper_roam hlater hnext, path, hpath,
    Session.complete_of_arg hbefore hv hpath, fun arg other errand errand' harg herrand => ?_⟩
  exact Errand.alike_work (fun _ hk => hk) (hmeets arg other harg errand.follows)
    (herrand.imp fun p q hpq => hmeets p q hpq false) _ _ (v.siteAfter_agrees before) (.refl _)

/-- In a table, `/l` leads to the directory `/d`; on the host, `/m` leads to that link. -/
def twoStores : Site :=
  let registry := Scene.onTable.registry.add (.ofHost "h")
  let s : Session := ⟨registry, 32, (Capability.onDisk "file").threshold⟩
  let work : Work Unit := do
    s.makeDirectory (.text "lfs://nn/d") false
    s.makeLink (.text "d") (.text "lfs://nn/l") false
    s.makeLink (.text "lfs://nn/l") (.text "/m") false
  (work.eval { Scene.onTable.site with disks := [("h", Disk.fresh {} ⟨0⟩)] }).2

/-- From a link on the host, where the client stays, to a link in the table, which is followed: a
file is made there. -/
theorem same_below_across_stores :
    let c := Capability.onDisk "file"
    let visit : String → Visit := fun raw =>
      ⟨Scene.onTable.registry.add (.ofHost "h"), 32, twoStores, .text raw⟩
    let v := visit "lfs://nn/l"
    let before := c.threshold.roam [visit "/m"]
    let dir : Path := { location := ⟨some "lfs", some "nn"⟩, segments := ["d"] }
    let path : Path := { location := ⟨some "lfs", some "nn"⟩, segments := ["l"] }
    let errand : Errand := .createFile false false
    let later := (errand.work (v.session (v.next before)) (.text "x")).eval (v.siteAfter before)
    let earlier := (errand.work (v.session before) (.path (path.child ["x"]))).eval v.site
    (∀ w ∈ [visit "/m"] ++ [v], w.Normal) ∧ before.workingDirectory.text = "file:///m" ∧
      v.outcome before = .ok dir ∧ (v.next before).workingDirectory = dir ∧
      (v.session before).qualified v.arg = .ok path ∧
      SameOutcome (fun x y : Answer => x.unnamed = y.unnamed) later.1 earlier.1 ∧
      later.2.Agrees earlier.2 := by
  intro c visit v before dir path errand later earlier
  have hvisits : ∀ w ∈ [visit "/m"] ++ [v], w.Normal := by
    intro w hw
    obtain rfl | rfl : w = visit "/m" ∨ w = v := by simpa using hw
    all_goals exact PathArg.normal_of_text
  have hok : v.outcome before = .ok dir := by decide +kernel
  have hpath : (v.session before).qualified v.arg = .ok path := by decide +kernel
  have hmade : earlier.1.toOption.isSome = true := by decide +kernel
  have hfew : ¬FailsAs (· = .cyclicLink) earlier.1 := by
    rintro ⟨e, he, -⟩
    rw [he] at hmade
    cases hmade
  obtain ⟨-, hgoes⟩ := same_below c [visit "/m"] v hvisits
  obtain ⟨hdir, -, -, path', hpath', -, hsame⟩ := hgoes dir hok
  obtain rfl : path' = path := Except.ok.inj (hpath'.symm.trans hpath)
  have hbelow : PathArg.Below path (.text "x") (.path (path.child ["x"])) :=
    .relative (by decide +kernel) (by decide) (by decide)
  have hlast := (hsame _ _ errand errand hbelow (.alone rfl)).resolve_left hfew
  exact ⟨hvisits, by decide +kernel, hok, hdir, hpath, hlast⟩

end Visit

end MountSpace
