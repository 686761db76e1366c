import MountSpace.Proofs.Session.Alike

/-!
# The follow policy

Whether an operation follows a link in the last place of a path is fixed for each operation.  So it
makes no difference whether an operation is given a path, or the end that resolving the path in the
same way comes to: the answers are the same, or failures of one kind, and so are the stores
afterwards.

## Main definitions

* `Session.SameEnd` — two ways of naming one end.
* `Session.Meets` — a path in one session and a path in another that come to one outcome.
* `Errand` — an operation with one of its paths left open.
* `Errand.follows` — whether a link in the last place of that path is followed.
* `Errand.Beside` — errands that differ in the other path of a move at most.
* `Answer.unnamed` — an answer without the path under which a stream was asked for.

Main statements: `Errand.alike_work`, `Errand.same_at_end`.
-/

namespace MountSpace

/-- The stream without the path under which it was asked for. -/
def InputStream.unnamed (s : InputStream) : InputStream := { s with path := .root {} }

/-- The stream without the path under which it was asked for. -/
def OutputStream.unnamed (s : OutputStream) : OutputStream := { s with path := .root {} }

namespace Session

variable {s : Session} {site : Site} {path other : Path} {follow : Bool} {r : Resolution}

/-! ## Two ways of naming one end -/

/-- The end of a path is its own end. -/
theorem Resolves.again (h : s.Resolves site path follow r) :
    s.Resolves site r.path follow r := by
  have hagain : s.trace site r.path follow = ⟨[], .ok r⟩ :=
    Atlas.resolve_again h s.standpoint s.maxLinks
  rw [Resolves, hagain]

/-- The end of a path is complete as it stands. -/
theorem Resolves.qualified_path (h : s.Resolves site path follow r) :
    s.qualified (.path r.path) = .ok r.path :=
  congrArg Except.ok (Standpoint.complete_of_isStated (Atlas.isStated_of_resolve h))

/-- Both are refused for one kind of reason, or come to one outcome when they are resolved. -/
def SameEnd (s : Session) (site : Site) (follow : Bool) (arg other : PathArg) : Prop :=
  SameOutcome (fun p q => (s.trace site p follow).outcome = (s.trace site q follow).outcome)
    (s.qualified arg) (s.qualified other)

/-- A path and its end are two ways of naming the end. -/
theorem Resolves.sameEnd {arg : PathArg} (hpath : s.qualified arg = .ok path)
    (h : s.Resolves site path follow r) : s.SameEnd site follow arg (.path r.path) := by
  unfold SameEnd
  rw [hpath, h.qualified_path]
  exact .ok (Eq.trans h h.again.symm)

/-! ## Two sessions -/

section Meets

variable {spared : ErrorKind → Prop} {t : Session} {p q : Path}

/-- In one session and in another, the two paths come to one outcome when they are resolved,
unless the second fails in a way that is spared. -/
def MeetsAt (spared : ErrorKind → Prop) (s t : Session) (site : Site) (follow : Bool)
    (p q : Path) : Prop :=
  FailsAs spared (t.trace site q follow).outcome ∨
    SameOutcome Eq (s.trace site p follow).outcome (t.trace site q follow).outcome

/-- Both are refused for one kind of reason, or complete to paths that meet. -/
def Meets (spared : ErrorKind → Prop) (s t : Session) (site : Site) (follow : Bool)
    (arg other : PathArg) : Prop :=
  SameOutcome (MeetsAt spared s t site follow) (s.qualified arg) (t.qualified other)

theorem SameEnd.meets {arg other : PathArg} (h : s.SameEnd site follow arg other) :
    Meets spared s s site follow arg other :=
  SameOutcome.mono h fun _ _ heq => .inr (heq ▸ .of_refl (fun _ => rfl) _)

theorem Meets.refl (s : Session) (site : Site) (follow : Bool) (arg : PathArg) :
    Meets spared s s site follow arg arg := by
  apply SameOutcome.of_refl
  exact fun _ => .inr (.of_refl (fun _ => rfl) _)

/-! ## Resolving -/

theorem alike_resolve (h : MeetsAt spared s t site follow p q) :
    Work.AlikeUnless spared site Eq (s.resolve p follow) (t.resolve q follow) := by
  intro a b ha hb
  rw [eval_resolve, eval_resolve, s.trace_congr ha, t.trace_congr hb]
  exact h.imp_right fun hsame => ⟨hsame, (Site.Agrees.told _ _).trans
    ((ha.trans hb.symm).trans (Site.Agrees.told _ _).symm)⟩

theorem alike_require (h : MeetsAt spared s t site follow p q) :
    Work.AlikeUnless spared site Eq (s.require p follow) (t.require q follow) := by
  refine (alike_resolve h).bind_quiet (s.quiet_resolve p _) (t.quiet_resolve q _) fun r _ hr => ?_
  subst hr
  refine Work.AlikeOn.unless ?_
  cases r.status with
  | some status => exact Work.alikeOn_pure rfl
  | none => exact Work.alikeOn_throw rfl

/-- What is done with a complete path is done alike with two that meet. -/
theorem alike_qualified {α β : Type} {R : α → β → Prop} {arg other : PathArg}
    {f : Path → Work α} {g : Path → Work β} (h : Meets spared s t site follow arg other)
    (hfg : ∀ p q, MeetsAt spared s t site follow p q →
      Work.AlikeUnless spared site R (f p) (g q)) :
    Work.AlikeUnless spared site R (.ofExcept (s.qualified arg) >>= f)
      (.ofExcept (t.qualified other) >>= g) :=
  (Work.alikeOn_ofExcept h).unless.bind_quiet (Work.quiet_ofExcept _) (Work.quiet_ofExcept _) hfg

/-- What is done with a required entry is done alike for two ways of naming it. -/
theorem alike_required {α β : Type} {R : α → β → Prop} {arg other : PathArg}
    {f : Path → Resolution × Status → Work α} {g : Path → Resolution × Status → Work β}
    (h : Meets spared s t site follow arg other)
    (hfg : ∀ p q found, Work.AlikeOn site R (f p found) (g q found)) :
    Work.AlikeUnless spared site R
      (.ofExcept (s.qualified arg) >>= fun p => s.require p follow >>= f p)
      (.ofExcept (t.qualified other) >>= fun q => t.require q follow >>= g q) := by
  refine alike_qualified h fun p q hpq => (alike_require hpq).bind_quiet
    (s.quiet_require p _) (t.quiet_require q _) fun found _ hfound => ?_
  subst hfound
  exact (hfg p q found).unless

/-- What is done with an end is done alike for two ways of naming it. -/
theorem alike_resolved {α β : Type} {R : α → β → Prop} {arg other : PathArg}
    {f : Path → Resolution → Work α} {g : Path → Resolution → Work β}
    (h : Meets spared s t site follow arg other)
    (hfg : ∀ p q r, Work.AlikeOn site R (f p r) (g q r)) :
    Work.AlikeUnless spared site R
      (.ofExcept (s.qualified arg) >>= fun p => s.resolve p follow >>= f p)
      (.ofExcept (t.qualified other) >>= fun q => t.resolve q follow >>= g q) := by
  refine alike_qualified h fun p q hpq =>
    (alike_resolve hpq).bind_quiet (s.quiet_resolve p _) (t.quiet_resolve q _) fun r _ hr => ?_
  subst hr
  exact (hfg p q r).unless

end Meets

theorem alikeOn_prepareParent (r : Resolution) (p q : Path) (createParent : Bool) :
    Work.AlikeOn site Eq (prepareParent r p createParent) (prepareParent r q createParent) := by
  unfold prepareParent
  exact (Work.alikeOn_pure rfl).ite
    ((steady_makeParents r site).ite (Work.alikeOn_throw rfl))

theorem alikeOn_checkReplacement (src src' dst dst' : Path) (moved : Kind) (dest : Resolution)
    (old : Status) (overwrite : Bool) :
    Work.AlikeOn site Eq (checkReplacement src dst moved dest old overwrite)
      (checkReplacement src' dst' moved dest old overwrite) := by
  unfold checkReplacement
  refine Work.AlikeOn.check rfl (Work.AlikeOn.ite (Work.AlikeOn.check rfl ?_) ?_)
  · refine (steady_hasChildren dest).bind_alikeOn fun any after => ?_
    split
    · exact Work.alikeOn_throw rfl
    · exact Work.alikeOn_pure rfl
  · split
    · exact Work.alikeOn_throw rfl
    · exact Work.alikeOn_pure rfl

/-! ## Operations that follow -/

section Follow

variable {spared : ErrorKind → Prop} {t : Session} {arg other : PathArg}
  (h : Meets spared s t site true arg other)
include h

theorem alike_status : Work.AlikeUnless spared site Eq (s.status arg) (t.status other) :=
  alike_required h fun _ _ _ => Work.steady_ofExcept _ site

theorem alike_exists (hspared : ∀ k, spared k → k = .cyclicLink) :
    Work.AlikeUnless spared site Eq (s.exists_ arg) (t.exists_ other) := by
  have hfound : Work.AlikeUnless spared site Eq
      (.ofExcept (s.qualified arg) >>= fun path => s.resolve path true)
      (.ofExcept (t.qualified other) >>= fun path => t.resolve path true) :=
    alike_qualified h fun p q hpq => alike_resolve hpq
  have hquiet : ∀ (u : Session) (given : PathArg),
      Work.Quiet (.ofExcept (u.qualified given) >>= fun path => u.resolve path true) :=
    fun u given => (Work.quiet_ofExcept _).bind fun path => u.quiet_resolve path true
  exact hfound.caught (c := (· = .parentNotDirectory)) (hquiet s arg) (hquiet t other)
    (fun k hk => by simp [hspared k hk]) (fun _ => rfl) (fun _ => rfl)
    fun r _ hr => hr ▸ (Work.alikeOn_pure rfl).unless

theorem alike_hasKind (hspared : ∀ k, spared k → k = .cyclicLink) (kind : Kind) :
    Work.AlikeUnless spared site Eq (s.hasKind kind arg) (t.hasKind kind other) :=
  (alike_status h).caught (c := fun k => k = .notFound ∨ k = .parentNotDirectory)
    (s.quiet_status arg) (t.quiet_status other) (fun k hk => by simp [hspared k hk])
    (fun _ => rfl) (fun _ => rfl) fun status _ hstatus => hstatus ▸ (Work.alikeOn_pure rfl).unless

theorem alike_resolvePath :
    Work.AlikeUnless spared site Eq (s.resolvePath arg) (t.resolvePath other) :=
  alike_required h fun _ _ _ => Work.alikeOn_pure rfl

theorem alike_list : Work.AlikeUnless spared site Eq (s.list arg) (t.list other) := by
  refine alike_required h fun p q found => Work.AlikeOn.ite ?_ ?_
  · exact ((Work.steady_ofExcept _).bind fun _ => Work.steady_pure _) site
  · exact ((Mount.steady_within _ fun c => c.steady_list _).bind fun _ =>
      (Work.steady_ofExcept _).bind fun _ => Work.steady_pure _) site

theorem alike_openFile :
    Work.AlikeUnless spared site (fun x y => x.unnamed = y.unnamed) (s.openFile arg)
      (t.openFile other) := by
  refine alike_required h fun p q found => Work.AlikeOn.check rfl ?_
  exact (Mount.steady_within _ fun c => c.steady_content _).bind_alikeOn fun data after =>
    Work.alikeOn_pure rfl

theorem alike_createFile (overwrite createParent : Bool) :
    Work.AlikeUnless spared site (fun x y => x.1.unnamed = y.1.unnamed ∧ x.2 = y.2)
      (s.createFile arg overwrite createParent) (t.createFile other overwrite createParent) := by
  refine alike_resolved h fun p q r => ?_
  have hlast : ∀ after, Work.AlikeOn after (fun x y => x.1.unnamed = y.1.unnamed ∧ x.2 = y.2)
      ((r.mount.within fun c => c.write r.path.localText [] overwrite) >>= fun _ =>
        (pure ({ path := p }, ⟨r.mount, r.path.localText, .replace⟩) : Work (OutputStream × Sink)))
      ((r.mount.within fun c => c.write r.path.localText [] overwrite) >>= fun _ =>
        (pure ({ path := q }, ⟨r.mount, r.path.localText, .replace⟩) :
          Work (OutputStream × Sink))) :=
    fun after => (Mount.steady_within _ fun c => c.steady_write _ _ _).bind_alikeOn fun _ _ =>
      Work.alikeOn_pure ⟨rfl, rfl⟩
  cases r.status with
  | some status => exact Work.AlikeOn.check rfl (Work.AlikeOn.check rfl (hlast site))
  | none => exact (alikeOn_prepareParent r p q createParent).bind fun _ _ _ => hlast

theorem alike_appendFile :
    Work.AlikeUnless spared site (fun x y => x.1.unnamed = y.1.unnamed ∧ x.2 = y.2)
      (s.appendFile arg) (t.appendFile other) :=
  alike_required h fun _ _ _ => Work.AlikeOn.check rfl (Work.alikeOn_pure ⟨rfl, rfl⟩)

theorem alike_makeDirectory (createParent : Bool) :
    Work.AlikeUnless spared site Eq (s.makeDirectory arg createParent)
      (t.makeDirectory other createParent) := by
  refine alike_resolved h fun p q r => ?_
  cases r.status with
  | some status => exact (Work.alikeOn_pure rfl).ite (Work.alikeOn_throw rfl)
  | none =>
    exact (alikeOn_prepareParent r p q createParent).bind fun _ _ _ =>
      Mount.steady_within _ fun c => c.steady_makeDirectory _

theorem alike_setTimes (accessed modified : Option Moment) :
    Work.AlikeUnless spared site Eq (s.setTimes arg accessed modified)
      (t.setTimes other accessed modified) :=
  alike_required h fun _ _ _ =>
    ((Mount.steady_within _ fun c => c.steady_setTimes _ _ _) site).ite (Work.alikeOn_report _ _)

end Follow

/-! ## Operations that do not follow -/

section Stay

variable {spared : ErrorKind → Prop} {t : Session} {arg other : PathArg}
  (h : Meets spared s t site false arg other)
include h

theorem alike_linkStatus :
    Work.AlikeUnless spared site Eq (s.linkStatus arg) (t.linkStatus other) :=
  alike_required h fun _ _ _ => Work.steady_ofExcept _ site

theorem alike_linkTarget :
    Work.AlikeUnless spared site Eq (s.linkTarget arg) (t.linkTarget other) := by
  refine alike_required h fun p q found => ?_
  dsimp only
  split
  · exact Work.alikeOn_pure rfl
  · exact Work.alikeOn_throw rfl

theorem alike_delete (hspared : ∀ k, spared k → k = .cyclicLink) (recursive : Bool) :
    Work.AlikeUnless spared site Eq (s.delete arg recursive) (t.delete other recursive) := by
  refine alike_qualified h fun p q hpq => ?_
  refine (alike_resolve hpq).caught (c := (· = .parentNotDirectory)) (s.quiet_resolve p false)
    (t.quiet_resolve q false) (fun k hk => by simp [hspared k hk]) (fun _ => rfl) (fun _ => rfl)
    fun r _ hr => Work.AlikeOn.unless ?_
  subst hr
  dsimp only
  cases r.status with
  | none => exact Work.alikeOn_pure rfl
  | some status =>
  have hlast := Mount.steady_within r.mount fun c => c.steady_delete r.path.localText recursive
  refine Work.AlikeOn.check rfl (Work.AlikeOn.ite ?_ (hlast site))
  exact (steady_hasChildren r).bind_alikeOn fun any after => Work.AlikeOn.check rfl (hlast after)

theorem alike_makeLink (target : PathArg) (createParent : Bool) :
    Work.AlikeUnless spared site Eq (s.makeLink target arg createParent)
      (t.makeLink target other createParent) := by
  refine Work.AlikeUnless.check rfl ?_
  refine (Work.steady_ofExcept target.read site).unless.bind_quiet (Work.quiet_ofExcept _)
    (Work.quiet_ofExcept _) fun stored _ hstored => ?_
  subst hstored
  refine alike_resolved h fun p q r => Work.AlikeOn.check rfl ?_
  refine (alikeOn_prepareParent r p q createParent).bind fun _ _ _ after => ?_
  exact ((Mount.steady_within _ fun c => c.steady_makeLink _ _).bind fun _ =>
    Work.steady_report _) after

end Stay

theorem alike_move {spared : ErrorKind → Prop} {t : Session} {src src' dst dst' : PathArg}
    (hsrc : Meets spared s t site false src src') (hdst : Meets spared s t site false dst dst')
    (overwrite : Bool) :
    Work.AlikeUnless spared site Eq (s.move src dst overwrite) (t.move src' dst' overwrite) := by
  refine alike_qualified hsrc fun p p' hp => alike_qualified hdst fun q q' hq => ?_
  refine (alike_require hp).bind_quiet (s.quiet_require p false) (t.quiet_require p' false)
    fun found _ hfound => ?_
  subst hfound
  refine (alike_resolve hq).bind_quiet (s.quiet_resolve q false) (t.quiet_resolve q' false)
    fun dest _ hdest => ?_
  subst hdest
  obtain ⟨source, status⟩ := found
  have hlast := Mount.steady_within source.mount fun c =>
    c.steady_move source.path.localText dest.path.localText overwrite
  refine Work.AlikeOn.unless ?_
  refine Work.AlikeOn.check rfl (Work.AlikeOn.check rfl (Work.AlikeOn.ite
    (Work.alikeOn_pure rfl) (Work.AlikeOn.check rfl ?_)))
  cases dest.status with
  | some old =>
    exact (alikeOn_checkReplacement p p' q q' status.kind dest old overwrite).bind
      fun _ _ _ => hlast
  | none => exact Work.AlikeOn.check rfl (hlast site)

end Session

/-! ## Errands -/

/-- An operation with one of its paths left open.  A move has another path, which is given.  So is
the target of a new link, but that is not looked up: it is kept as it stands. -/
inductive Errand
  | openFile
  | createFile (overwrite createParent : Bool)
  | appendFile
  | list
  | status
  | exists_
  | isFile
  | isDirectory
  | resolvePath
  | makeDirectory (createParent : Bool)
  | setTimes (accessed modified : Option Moment)
  | delete (recursive : Bool)
  | linkStatus
  | linkTarget
  | moveFrom (dst : PathArg) (overwrite : Bool)
  | moveTo (src : PathArg) (overwrite : Bool)
  | makeLink (target : PathArg) (createParent : Bool)

/-- Whether a link in the last place of the open path is followed. -/
def Errand.follows : Errand → Bool
  | .delete .. | .linkStatus | .linkTarget | .moveFrom .. | .moveTo .. | .makeLink .. => false
  | _ => true

/-- The operation on a path, and its answer. -/
def Errand.work (s : Session) (arg : PathArg) : Errand → Work Answer
  | .openFile => .reading <$> s.openFile arg
  | .createFile overwrite createParent =>
    (fun x => .writing x.1 x.2) <$> s.createFile arg overwrite createParent
  | .appendFile => (fun x => .writing x.1 x.2) <$> s.appendFile arg
  | .list => .entries <$> s.list arg
  | .status => .entry <$> s.status arg
  | .exists_ => .truth <$> s.exists_ arg
  | .isFile => .truth <$> s.isFile arg
  | .isDirectory => .truth <$> s.isDirectory arg
  | .resolvePath => .path <$> s.resolvePath arg
  | .makeDirectory createParent => (fun _ => .done) <$> s.makeDirectory arg createParent
  | .setTimes accessed modified => (fun _ => .done) <$> s.setTimes arg accessed modified
  | .delete recursive => .truth <$> s.delete arg recursive
  | .linkStatus => .entry <$> s.linkStatus arg
  | .linkTarget => .path <$> s.linkTarget arg
  | .moveFrom dst overwrite => (fun _ => .done) <$> s.move arg dst overwrite
  | .moveTo src overwrite => (fun _ => .done) <$> s.move src arg overwrite
  | .makeLink target createParent => (fun _ => .done) <$> s.makeLink target arg createParent

/-- The other path of a move, if the operation is one. -/
def Errand.other? : Errand → Option PathArg
  | .moveFrom dst _ => some dst
  | .moveTo src _ => some src
  | _ => none

/-- Two errands that differ in the other path of a move at most, where the two paths are
related. -/
inductive Errand.Beside (R : PathArg → PathArg → Prop) : Errand → Errand → Prop
  | moveFrom {dst dst' : PathArg} (h : R dst dst') (overwrite : Bool) :
    Beside R (.moveFrom dst overwrite) (.moveFrom dst' overwrite)
  | moveTo {src src' : PathArg} (h : R src src') (overwrite : Bool) :
    Beside R (.moveTo src overwrite) (.moveTo src' overwrite)
  | alone {errand : Errand} (h : errand.other? = none) : Beside R errand errand

/-- The answer without the path under which a stream was asked for. -/
def Answer.unnamed : Answer → Answer
  | .reading stream => .reading stream.unnamed
  | .writing stream sink => .writing stream.unnamed sink
  | answer => answer

namespace Errand

variable {s t : Session} {site : Site} {arg other : PathArg} {errand errand' : Errand}

theorem Beside.refl {R : PathArg → PathArg → Prop} (hR : ∀ p, R p p) (errand : Errand) :
    errand.Beside R errand := by
  cases errand with
  | moveFrom dst overwrite => exact .moveFrom (hR dst) overwrite
  | moveTo src overwrite => exact .moveTo (hR src) overwrite
  | _ => exact .alone rfl

theorem Beside.imp {R S : PathArg → PathArg → Prop} (h : errand.Beside R errand')
    (hRS : ∀ p q, R p q → S p q) : errand.Beside S errand' := by
  cases h with
  | moveFrom h overwrite => exact .moveFrom (hRS _ _ h) overwrite
  | moveTo h overwrite => exact .moveTo (hRS _ _ h) overwrite
  | alone h => exact .alone h

/-- An errand is done alike in two sessions when its paths meet there, unless the second time a
failure is spared. -/
theorem alike_work {spared : ErrorKind → Prop} (hspared : ∀ k, spared k → k = .cyclicLink)
    (h : Session.Meets spared s t site errand.follows arg other)
    (hother : errand.Beside (Session.Meets spared s t site false) errand') :
    Work.AlikeUnless spared site (fun x y => x.unnamed = y.unnamed) (errand.work s arg)
      (errand'.work t other) := by
  cases hother with
  | moveFrom hdst overwrite => exact (Session.alike_move h hdst overwrite).map fun _ _ _ => rfl
  | moveTo hsrc overwrite => exact (Session.alike_move hsrc h overwrite).map fun _ _ _ => rfl
  | alone halone =>
  cases errand with
  | openFile => exact (Session.alike_openFile h).map fun x y hxy => congrArg Answer.reading hxy
  | createFile overwrite createParent =>
    exact (Session.alike_createFile h overwrite createParent).map fun x y hxy =>
      congrArg₂ Answer.writing hxy.1 hxy.2
  | appendFile =>
    exact (Session.alike_appendFile h).map fun x y hxy =>
      congrArg₂ Answer.writing hxy.1 hxy.2
  | list => exact (Session.alike_list h).map fun x y hxy => by rw [hxy]
  | status => exact (Session.alike_status h).map fun x y hxy => by rw [hxy]
  | exists_ => exact (Session.alike_exists h hspared).map fun x y hxy => by rw [hxy]
  | isFile => exact (Session.alike_hasKind h hspared .file).map fun x y hxy => by rw [hxy]
  | isDirectory =>
    exact (Session.alike_hasKind h hspared .directory).map fun x y hxy => by rw [hxy]
  | resolvePath => exact (Session.alike_resolvePath h).map fun x y hxy => by rw [hxy]
  | makeDirectory createParent =>
    exact (Session.alike_makeDirectory h createParent).map fun _ _ _ => rfl
  | setTimes accessed modified =>
    exact (Session.alike_setTimes h accessed modified).map fun _ _ _ => rfl
  | delete recursive =>
    exact (Session.alike_delete h hspared recursive).map fun x y hxy => by rw [hxy]
  | linkStatus => exact (Session.alike_linkStatus h).map fun x y hxy => by rw [hxy]
  | linkTarget => exact (Session.alike_linkTarget h).map fun x y hxy => by rw [hxy]
  | makeLink target createParent =>
    exact (Session.alike_makeLink h target createParent).map fun _ _ _ => rfl
  | moveFrom | moveTo => cases halone

/-- An errand is done alike for two ways of naming one end. -/
theorem alikeOn_work (h : s.SameEnd site errand.follows arg other) :
    Work.AlikeOn site (fun x y => x.unnamed = y.unnamed) (errand.work s arg)
      (errand.work s other) := fun a b ha hb =>
  (alike_work (fun _ (hk : False) => hk.elim) h.meets (.refl (.refl s site false) errand)
    a b ha hb).resolve_left fun ⟨_, _, hk⟩ => hk

/-- **The follow policy is fixed.**  Whatever a client asks for, and whatever the mounts hold, an
operation does the same with a path as with the end that the path resolves to under the policy of
the operation: the answers are the same but for the name of a stream, or failures of one kind, and
all disks and tables end in the same states. -/
theorem same_at_end (errand : Errand) (s : Session) (site : Site) (arg : PathArg) (path : Path)
    (r : Resolution) (hpath : s.qualified arg = .ok path)
    (hr : ((s.resolve path errand.follows).eval site).1 = .ok r) :
    SameOutcome (fun x y => x.unnamed = y.unnamed) ((errand.work s arg).eval site).1
        ((errand.work s (.path r.path)).eval site).1 ∧
      ((errand.work s arg).eval site).2.Agrees ((errand.work s (.path r.path)).eval site).2 := by
  have hresolves : s.Resolves site path errand.follows r := by
    rwa [Session.eval_resolve] at hr
  exact alikeOn_work (hresolves.sameEnd hpath) site site (.refl site) (.refl site)

/-- A file is made behind a link: the path leads through the link, its end does not. -/
theorem same_at_end_behind_link :
    let s := Session.alone (.ofHost "h")
    let errand : Errand := .createFile false false
    let path : Path := { location := ⟨some "file", none⟩, segments := ["l", "x"] }
    s.qualified (.text "/l/x") = .ok path ∧
      ∃ r, ((s.resolve path errand.follows).eval Session.hostWithLink).1 = .ok r ∧
        r.path.segments = ["d", "x"] ∧
        SameOutcome (fun x y => x.unnamed = y.unnamed)
          ((errand.work s (.text "/l/x")).eval Session.hostWithLink).1
          ((errand.work s (.path r.path)).eval Session.hostWithLink).1 ∧
        ((errand.work s (.text "/l/x")).eval Session.hostWithLink).2.Agrees
          ((errand.work s (.path r.path)).eval Session.hostWithLink).2 := by
  intro s errand path
  have hpath : s.qualified (.text "/l/x") = .ok path := by decide +kernel
  have hends : ((s.resolve path errand.follows).eval Session.hostWithLink).1.toOption.map
      (fun r => r.path.segments) = some ["d", "x"] := by decide +kernel
  cases hr : ((s.resolve path errand.follows).eval Session.hostWithLink).1 with
  | error e => rw [hr] at hends; cases hends
  | ok r =>
    rw [hr] at hends
    exact ⟨hpath, r, rfl, by simpa [Except.toOption] using hends,
      same_at_end errand s Session.hostWithLink (.text "/l/x") path r hpath hr⟩

end Errand

end MountSpace
