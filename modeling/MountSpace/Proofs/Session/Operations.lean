import MountSpace.Proofs.Session.FollowPolicy
import MountSpace.Proofs.Session.Script

/-!
# The scripts of the operations

Every operation of a client as a script, with the pieces of work in the order in which the mounts
are asked: one for every walk, one for the directories that are made above a new entry, one for a
look into a directory, and one for what the operation is about.

## Main definitions

* `Script.resolve`, `Script.require`, `Script.prepareParent` — what operations begin with.
* `Script.makeLink`, …, `Script.changeDirectory` — the operations.
* `Operation` — an operation with the paths it is given; `Operation.script`, `Operation.work`.
* `Sink.script` — how the bytes of an output stream are handed over.

Main statements: `Operation.run_stores`, `Sink.run_stores` — served by the stores, a script is the
operation.
-/

namespace MountSpace

/-! ## Walks -/

namespace Piece

/-- Walks on from `dir` along `names`, the last part of `path`. -/
def advance (mount : Mount) (path asked : Path) (follow : Bool) (dir : Path) :
    List String → Piece Leg
  | [] => pure (.arrived ⟨path, mount, none, true⟩)
  | name :: rest => do
    let here := dir.child [name]
    match ← call (.status here.localText) with
    | none => return .arrived ⟨path, mount, none, rest.isEmpty⟩
    | some status =>
      if status.kind = .link ∧ (follow ∨ rest ≠ []) then
        match status.target with
        | some target => return .met here target rest
        | none => fail .linkWithoutTarget
      else if rest = [] then return .arrived ⟨path, mount, some status, true⟩
      else if status.kind = .file then fail (.parentIsFile here.text asked.text)
      else advance mount path asked follow here rest

/-- One walk in one mount. -/
def walk (mount : Mount) (path asked : Path) (follow : Bool) : Piece Leg :=
  if path.isRoot then do
    return .arrived ⟨path, mount, ← call (.status "/"), true⟩
  else advance mount path asked follow (.root path.location) path.segments

/-- Makes the directories `names` below `dir`, one in the other, as far as they are missing. -/
def makeDirectories (dir : Path) : List String → Piece Unit
  | [] => pure ()
  | name :: rest => do
    let here := dir.child [name]
    if (← call (.status here.localText)).isNone then call (.makeDirectory here.localText)
    makeDirectories here rest

end Piece

namespace Script

variable (s : Session) (arg : PathArg)

/-- One walk from the path `current`, in the mount that owns it. -/
def leg (asked : Path) (follow : Bool) (current : Path) : Script (Mount × Leg) := do
  let mount ← .ofExcept (s.registry.lookup current asked)
  return (mount, ← .within mount (Piece.walk mount current asked follow))

/-- All walks from the path `current`, following at most `bound` links. -/
def trace (asked : Path) (follow : Bool) : Nat → Path → Script Resolution
  | bound, current => do
    match ← leg s asked follow current with
    | (_, .arrived r) => return r
    | (mount, .met link target rest) =>
      match bound with
      | 0 => fail (.tooManyLinks asked.text)
      | bound + 1 =>
        let next ← .ofExcept (Atlas.onward mount link target rest asked)
        .report (.followed link next)
        trace asked follow bound next

/-- Resolves a path. -/
def resolve (path : Path) (follow : Bool) : Script Resolution :=
  let start := Atlas.start s.standpoint path
  trace s start follow s.maxLinks start

/-- Resolves a path to an entry that is there. -/
def require (path : Path) (follow : Bool) : Script (Resolution × Status) := do
  let r ← resolve s path follow
  match r.status with
  | some status => return (r, status)
  | none => fail (.notFound path.text)

/-- Makes the directories above a resolved path, as far as they are missing. -/
def makeParents (r : Resolution) : Script Unit :=
  match r.path.parent? with
  | none => pure ()
  | some parent => .within r.mount (Piece.makeDirectories (.root parent.location) parent.segments)

/-- Sees to it that a new entry has a directory. -/
def prepareParent (r : Resolution) (asked : Path) (createParent : Bool) : Script Unit :=
  if r.parentExists then pure ()
  else if createParent then makeParents r
  else fail (.parentMissing asked.text)

/-- Whether a resolved directory holds anything. -/
def hasChildren (r : Resolution) : Script Bool :=
  .within r.mount do return !(← Piece.call (.list r.path.localText)).isEmpty

/-! ## Operations -/

/-- Makes a link. -/
def makeLink (target link : PathArg) (createParent : Bool) : Script Unit := do
  if target = .missing then fail .missingTarget
  let target ← .ofExcept target.read
  let path ← .ofExcept (s.qualified link)
  let r ← resolve s path false
  if r.status.isSome then fail (.entryExists path.text)
  prepareParent r path createParent
  let target := r.mount.capability.attach target
  .within r.mount (.call (.makeLink r.path.localText target.text))
  .report (.linked r.path target)

/-- The target of a link as it is stored. -/
def linkTarget : Script Path := do
  let path ← .ofExcept (s.qualified arg)
  let (_, status) ← require s path false
  match status.kind, status.target with
  | .link, some target => return target
  | _, _ => fail (.notLink path.text)

/-- The status of an entry, found through links. -/
def status : Script Status := do
  let path ← .ofExcept (s.qualified arg)
  let (r, status) ← require s path true
  .ofExcept (Session.located status r.path)

/-- The status of an entry itself. -/
def linkStatus : Script Status := do
  let path ← .ofExcept (s.qualified arg)
  let (r, status) ← require s path false
  .ofExcept (Session.located status r.path)

/-- Whether there is an entry. -/
def exists_ : Script Bool := do
  let found ← attempt do
    let path ← .ofExcept (s.qualified arg)
    resolve s path true
  match found with
  | .ok r => return r.status.isSome
  | .error e => if e.kind = .parentNotDirectory then return false else fail e

/-- Whether there is an entry of one kind. -/
def hasKind (kind : Kind) : Script Bool := do
  match ← attempt (status s arg) with
  | .ok status => return status.kind = kind
  | .error e =>
    if e.kind = .notFound ∨ e.kind = .parentNotDirectory then return false else fail e

/-- The complete path of the entry that a path leads to. -/
def resolvePath : Script Path := do
  let path ← .ofExcept (s.qualified arg)
  return (← require s path true).1.path

/-- The entries in a directory by name, or the one entry that is no directory. -/
def list : Script (List Status) := do
  let path ← .ofExcept (s.qualified arg)
  let (r, status) ← require s path true
  if status.kind ≠ .directory then return [← .ofExcept (Session.located status r.path)]
  let entries ← .within r.mount (.call (.list r.path.localText))
  let found ← .ofExcept (entries.mapM fun e => Session.located e (r.path.child [e.path.name]))
  return found.mergeSort fun a b => a.path.name ≤ b.path.name

/-- Opens a file for reading. -/
def openFile : Script InputStream := do
  let path ← .ofExcept (s.qualified arg)
  let (r, status) ← require s path true
  if status.kind = .directory then fail (.isDirectory path.text)
  let data ← .within r.mount (.call (.content r.path.localText))
  return { path, data }

/-- Makes an empty file, or empties one, and opens it for writing. -/
def createFile (overwrite createParent : Bool) : Script (OutputStream × Sink) := do
  let path ← .ofExcept (s.qualified arg)
  let r ← resolve s path true
  match r.status with
  | some status =>
    if status.kind = .directory then fail (.directoryExists path.text)
    if !overwrite then fail (.entryExists path.text)
  | none => prepareParent r path createParent
  .within r.mount (.call (.write r.path.localText [] overwrite))
  return ({ path }, ⟨r.mount, r.path.localText, .replace⟩)

/-- Opens a file for writing at its end. -/
def appendFile : Script (OutputStream × Sink) := do
  let path ← .ofExcept (s.qualified arg)
  let (r, status) ← require s path true
  if status.kind = .directory then fail (.isDirectory path.text)
  return ({ path }, ⟨r.mount, r.path.localText, .extend⟩)

/-- Makes a directory. -/
def makeDirectory (createParent : Bool) : Script Unit := do
  let path ← .ofExcept (s.qualified arg)
  let r ← resolve s path true
  match r.status with
  | some status =>
    if createParent && status.kind = .directory then return
    fail (.entryExists path.text)
  | none =>
    prepareParent r path createParent
    .within r.mount (.call (.makeDirectory r.path.localText))

/-- Deletes an entry, and says whether there was one. -/
def delete (recursive : Bool) : Script Bool := do
  let path ← .ofExcept (s.qualified arg)
  match ← attempt (resolve s path false) with
  | .error e => if e.kind = .parentNotDirectory then return false else fail e
  | .ok r =>
    match r.status with
    | none => return false
    | some status =>
      if r.path.isRoot then fail (.rootDeletion path.text)
      if status.kind = .directory && !recursive then
        if ← hasChildren r then fail (.notEmpty path.text)
      .within r.mount (.call (.delete r.path.localText recursive))

/-- What speaks against putting an entry of the kind `moved` in the place of an entry. -/
def checkReplacement (src dst : Path) (moved : Kind) (dest : Resolution) (old : Status)
    (overwrite : Bool) : Script Unit := do
  if !overwrite then fail (.destinationExists dst.text)
  if old.kind = .directory then
    if moved ≠ .directory then fail (.otherOverDirectory dst.text src.text)
    if ← hasChildren dest then fail (.destinationNotEmpty dst.text)
  else if moved = .directory then fail (.directoryOverOther dst.text src.text)

/-- Moves an entry within its mount. -/
def move (srcArg dstArg : PathArg) (overwrite : Bool) : Script Unit := do
  let src ← .ofExcept (s.qualified srcArg)
  let dst ← .ofExcept (s.qualified dstArg)
  let (source, status) ← require s src false
  let dest ← resolve s dst false
  if source.mount.location ≠ dest.mount.location then fail (.acrossMounts src.text dst.text)
  if source.path.isRoot then fail (.rootMove src.text)
  if source.path = dest.path then return
  if source.path.isAncestorOf dest.path then fail (.moveIntoItself dst.text src.text)
  match dest.status with
  | some old => checkReplacement src dst status.kind dest old overwrite
  | none => if !dest.parentExists then fail (.parentMissing dst.text)
  .within source.mount (.call (.move source.path.localText dest.path.localText overwrite))

/-- Sets the times that are given, on a store that keeps them. -/
def setTimes (accessed modified : Option Moment) : Script Unit := do
  let path ← .ofExcept (s.qualified arg)
  let (r, _) ← require s path true
  if r.mount.capability.honorsTimes then
    .within r.mount (.call (.setTimes r.path.localText accessed modified))
  else .report (.timesIgnored path)

/-- The working directory after a change. -/
def changeDirectory : Script Path := do
  let path ← .ofExcept (s.qualified arg)
  let (r, status) ← require s path true
  if status.kind ≠ .directory then fail (.workingDirectoryNotDirectory path.text)
  let owner ← .ofExcept (s.registry.lookup path path)
  return if owner.capability.followsWorkingDirectory then r.path else path

end Script

/-! ## Errands -/

/-- The script of an errand. -/
def Errand.script (s : Session) (arg : PathArg) : Errand → Script Answer
  | .openFile => .reading <$> Script.openFile s arg
  | .createFile overwrite createParent =>
    (fun x => .writing x.1 x.2) <$> Script.createFile s arg overwrite createParent
  | .appendFile => (fun x => .writing x.1 x.2) <$> Script.appendFile s arg
  | .list => .entries <$> Script.list s arg
  | .status => .entry <$> Script.status s arg
  | .exists_ => .truth <$> Script.exists_ s arg
  | .isFile => .truth <$> Script.hasKind s arg .file
  | .isDirectory => .truth <$> Script.hasKind s arg .directory
  | .resolvePath => .path <$> Script.resolvePath s arg
  | .makeDirectory createParent => (fun _ => .done) <$> Script.makeDirectory s arg createParent
  | .setTimes accessed modified => (fun _ => .done) <$> Script.setTimes s arg accessed modified
  | .delete recursive => .truth <$> Script.delete s arg recursive
  | .linkStatus => .entry <$> Script.linkStatus s arg
  | .linkTarget => .path <$> Script.linkTarget s arg
  | .moveFrom dst overwrite => (fun _ => .done) <$> Script.move s arg dst overwrite
  | .moveTo src overwrite => (fun _ => .done) <$> Script.move s src arg overwrite
  | .makeLink target createParent => (fun _ => .done) <$> Script.makeLink s target arg createParent

/-- An operation with the paths it is given. -/
inductive Operation
  /-- An errand, with the path that it leaves open. -/
  | errand (e : Errand) (arg : PathArg)
  /-- A change of the working directory. -/
  | changeDirectory (arg : PathArg)

namespace Operation

/-- What the operation does, and its answer. -/
def work (s : Session) : Operation → Work Answer
  | .errand e arg => e.work s arg
  | .changeDirectory arg => .directory <$> s.changeDirectory arg

/-- The script of the operation. -/
def script (s : Session) : Operation → Script Answer
  | .errand e arg => e.script s arg
  | .changeDirectory arg => .directory <$> Script.changeDirectory s arg

end Operation

/-- How the bytes of an output stream are handed over. -/
def Sink.script (sink : Sink) (data : Bytes) : Script Unit :=
  .within sink.mount <| match sink.mode with
    | .replace => .call (.write sink.path data true)
    | .extend => .call (.append sink.path data)

/-! ## Served by the stores -/

theorem Action.ext {ε σ α : Type} {a b : Action ε σ α} (h : ∀ s, a.eval s = b.eval s) : a = b :=
  funext h

namespace Piece

variable (s : Session) (mount : Mount) (path asked : Path) (follow : Bool)

theorem eval_status (text : String) (site : Site) :
    ((call (.status text)).run .stores mount.connection).eval site =
      (mount.statusIn site text, site) := rfl

/-- Walking on asks the store for what the atlas says. -/
theorem eval_advance (dir : Path) (names : List String) (site : Site) :
    ((advance mount path asked follow dir names).run .stores mount.connection).eval site =
      ((s.atlas site).advance mount path asked follow dir names, site) := by
  induction names generalizing dir with
  | nil => rfl
  | cons name rest ih =>
    rw [advance, Atlas.advance, run_bind, Action.eval_bind, eval_status]
    change _ = (mount.statusIn site (dir.child [name]).localText >>= _, site)
    rcases mount.statusIn site (dir.child [name]).localText with e | _ | status
    · rfl
    · rfl
    · change Action.eval (run _ _ (ite _ _ _)) _ = (ite _ _ _, _)
      by_cases hl : status.kind = .link ∧ (follow ∨ rest ≠ [])
      · rw [if_pos hl, if_pos hl]
        cases status.target <;> rfl
      rw [if_neg hl, if_neg hl]
      by_cases hr : rest = []
      · rw [if_pos hr, if_pos hr]
        rfl
      rw [if_neg hr, if_neg hr]
      by_cases hf : status.kind = .file
      · rw [if_pos hf, if_pos hf]
        rfl
      rw [if_neg hf, if_neg hf]
      exact ih _

theorem eval_walk (site : Site) :
    ((walk mount path asked follow).run .stores mount.connection).eval site =
      ((s.atlas site).walk mount path asked follow, site) := by
  unfold walk Atlas.walk
  by_cases hroot : path.isRoot = true
  · rw [if_pos hroot, if_pos hroot, run_bind, Action.eval_bind, eval_status]
    change _ = (mount.statusIn site "/" >>= _, site)
    rcases mount.statusIn site "/" with e | found <;> rfl
  · rw [if_neg hroot, if_neg hroot]
    exact eval_advance s mount path asked follow _ _ site

end Piece

theorem Driver.eval_stores_of_still {α : Type} {m : Mount} {work : Connection → Work α}
    {site : Site} {r : Except Error α} (h : (work m.connection).eval site = (r, site)) :
    (Driver.stores.within m work).eval site = (r, site) := by
  rw [Driver.stores_within, Mount.eval_within, h]
  cases r with
  | error e => dsimp only; split <;> rfl
  | ok a => rfl

namespace Script

variable (s : Session) (asked path : Path) (follow : Bool)

theorem eval_leg (current : Path) (site : Site) :
    ((leg s asked follow current).run .stores).eval site =
      ((s.atlas site).leg asked follow current, site) := by
  unfold leg Atlas.leg
  rw [run_bind, run_ofExcept, Action.eval_bind, Action.eval_ofExcept]
  change _ = (s.registry.lookup current asked >>= _, site)
  rcases s.registry.lookup current asked with e | mount
  · rfl
  dsimp only
  rw [run_bind, run_within, Action.eval_bind,
    Driver.eval_stores_of_still (Piece.eval_walk s mount current asked follow site)]
  change _ = ((s.atlas site).walk mount current asked follow >>= _, site)
  rcases (s.atlas site).walk mount current asked follow with e | l <;> rfl

/-- All walks, with a report of every link as it is followed. -/
theorem eval_trace (bound : ℕ) (current : Path) (site : Site) :
    ((trace s asked follow bound current).run .stores).eval site =
      (((s.atlas site).trace asked follow bound current).outcome,
        site.told (Session.hopReports ((s.atlas site).trace asked follow bound current).hops)) := by
  induction bound generalizing current site with
  | zero =>
    rw [trace, Atlas.trace, run_bind, Action.eval_bind, eval_leg]
    rcases (s.atlas site).leg asked follow current with e | ⟨mount, r | ⟨link, target, rest⟩⟩ <;>
      simp [Session.hopReports]
  | succ bound ih =>
    rw [trace, Atlas.trace, run_bind, Action.eval_bind, eval_leg]
    rcases (s.atlas site).leg asked follow current with e | ⟨mount, r | ⟨link, target, rest⟩⟩
    · simp [Session.hopReports]
    · simp [Session.hopReports]
    dsimp only
    rw [run_bind, run_ofExcept, Action.eval_bind, Action.eval_ofExcept]
    rcases Atlas.onward mount link target rest asked with e | next
    · simp [Session.hopReports]
    dsimp only
    rw [run_bind, run_report, Action.eval_bind, Work.eval_report]
    refine (ih next _).trans ?_
    rw [Site.told_told]
    rfl

/-- Served by the stores, resolving is what it is. -/
theorem run_resolve : (resolve s path follow).run .stores = s.resolve path follow := by
  apply Action.ext
  intro site
  rw [Session.eval_resolve]
  exact eval_trace s _ follow s.maxLinks _ site

theorem run_require : (require s path follow).run .stores = s.require path follow := by
  refine run_bind_congr _ (run_resolve s path follow) fun r => ?_
  cases r.status <;> rfl

end Script

theorem Piece.run_makeDirectories (c : Connection) (dir : Path) (names : List String) :
    (makeDirectories dir names).run .stores c = Session.makeDirectories c dir names := by
  induction names generalizing dir with
  | nil => rfl
  | cons name rest ih =>
    rw [makeDirectories, Session.makeDirectories, run_bind]
    refine bind_congr fun found => ?_
    split
    · rw [run_bind]
      exact bind_congr fun _ => ih _
    · exact ih _

namespace Script

variable (s : Session) (arg : PathArg) (r : Resolution)

theorem run_makeParents : (makeParents r).run .stores = Session.makeParents r := by
  unfold makeParents Session.makeParents
  cases r.path.parent? with
  | none => rfl
  | some parent =>
    dsimp only
    simp only [run_within, Piece.run_makeDirectories]
    rfl

theorem run_prepareParent (asked : Path) (createParent : Bool) :
    (prepareParent r asked createParent).run .stores =
      Session.prepareParent r asked createParent := by
  unfold prepareParent Session.prepareParent
  split
  · rfl
  · split
    · exact run_makeParents r
    · rfl

theorem run_hasChildren : (hasChildren r).run .stores = Session.hasChildren r := rfl

theorem run_makeLink (target link : PathArg) (createParent : Bool) :
    (makeLink s target link createParent).run .stores = s.makeLink target link createParent := by
  unfold makeLink Session.makeLink
  refine run_check _ (bind_congr fun target => bind_congr fun path => ?_)
  refine run_bind_congr _ (run_resolve s path false) fun r => run_check _ ?_
  exact run_bind_congr _ (run_prepareParent r path createParent) fun _ => rfl

theorem run_linkTarget : (linkTarget s arg).run .stores = s.linkTarget arg := by
  refine bind_congr fun path => run_bind_congr _ (run_require s path false) fun found => ?_
  obtain ⟨r, status⟩ := found
  dsimp only
  cases status.kind <;> cases status.target <;> rfl

theorem run_status : (status s arg).run .stores = s.status arg :=
  bind_congr fun path => run_bind_congr _ (run_require s path true) fun _ => rfl

theorem run_linkStatus : (linkStatus s arg).run .stores = s.linkStatus arg :=
  bind_congr fun path => run_bind_congr _ (run_require s path false) fun _ => rfl

theorem run_exists : (exists_ s arg).run .stores = s.exists_ arg := by
  rw [exists_, run_bind, run_attempt, run_bind]
  simp only [run_resolve]
  refine bind_congr fun found => ?_
  rcases found with e | r
  · dsimp only
    split <;> rfl
  · rfl

theorem run_hasKind (kind : Kind) : (hasKind s arg kind).run .stores = s.hasKind kind arg := by
  rw [hasKind, run_bind, run_attempt, run_status]
  refine bind_congr fun found => ?_
  rcases found with e | status
  · dsimp only
    split <;> rfl
  · rfl

theorem run_resolvePath : (resolvePath s arg).run .stores = s.resolvePath arg :=
  bind_congr fun path => run_bind_congr _ (run_require s path true) fun _ => rfl

theorem run_list : (list s arg).run .stores = s.list arg := by
  refine bind_congr fun path => run_bind_congr _ (run_require s path true) fun found => ?_
  dsimp only
  split <;> rfl

theorem run_openFile : (openFile s arg).run .stores = s.openFile arg :=
  bind_congr fun path => run_bind_congr _ (run_require s path true) fun _ => run_check _ rfl

theorem run_createFile (overwrite createParent : Bool) :
    (createFile s arg overwrite createParent).run .stores =
      s.createFile arg overwrite createParent := by
  refine bind_congr fun path => run_bind_congr _ (run_resolve s path true) fun r => ?_
  cases r.status with
  | some status => exact run_check _ (run_check _ rfl)
  | none => exact run_bind_congr _ (run_prepareParent r path createParent) fun _ => rfl

theorem run_appendFile : (appendFile s arg).run .stores = s.appendFile arg :=
  bind_congr fun path => run_bind_congr _ (run_require s path true) fun _ => run_check _ rfl

theorem run_makeDirectory (createParent : Bool) :
    (makeDirectory s arg createParent).run .stores = s.makeDirectory arg createParent := by
  refine bind_congr fun path => run_bind_congr _ (run_resolve s path true) fun r => ?_
  cases r.status with
  | some status =>
    dsimp only
    split <;> rfl
  | none => exact run_bind_congr _ (run_prepareParent r path createParent) fun _ => rfl

theorem run_delete (recursive : Bool) :
    (delete s arg recursive).run .stores = s.delete arg recursive := by
  refine bind_congr fun path => ?_
  rw [run_bind, run_attempt, run_resolve]
  refine bind_congr fun found => ?_
  rcases found with e | r
  · dsimp only
    split <;> rfl
  dsimp only
  cases r.status with
  | none => rfl
  | some status =>
    refine run_check _ ?_
    split
    · exact run_bind_congr _ (run_hasChildren r) fun _ => run_check _ rfl
    · rfl

theorem run_checkReplacement (src dst : Path) (moved : Kind) (dest : Resolution) (old : Status)
    (overwrite : Bool) : (checkReplacement src dst moved dest old overwrite).run .stores =
      Session.checkReplacement src dst moved dest old overwrite := by
  unfold checkReplacement Session.checkReplacement
  refine run_check _ ?_
  by_cases hold : old.kind = .directory
  · rw [if_pos hold, if_pos hold]
    refine run_check _ (run_bind_congr _ (run_hasChildren dest) fun any => ?_)
    cases any <;> rfl
  · rw [if_neg hold, if_neg hold]
    split <;> rfl

theorem run_move (src dst : PathArg) (overwrite : Bool) :
    (move s src dst overwrite).run .stores = s.move src dst overwrite := by
  refine bind_congr fun p => bind_congr fun q => ?_
  refine run_bind_congr _ (run_require s p false) fun found => ?_
  refine run_bind_congr _ (run_resolve s q false) fun dest => run_check _ (run_check _ ?_)
  by_cases hsame : found.1.path = dest.path
  · rw [if_pos hsame, if_pos hsame]
    rfl
  rw [if_neg hsame, if_neg hsame]
  refine run_check _ ?_
  cases dest.status with
  | some old =>
    exact run_bind_congr _ (run_checkReplacement p q found.2.kind dest old overwrite) fun _ => rfl
  | none => exact run_check _ rfl

theorem run_setTimes (accessed modified : Option Moment) :
    (setTimes s arg accessed modified).run .stores = s.setTimes arg accessed modified := by
  refine bind_congr fun path => run_bind_congr _ (run_require s path true) fun found => ?_
  dsimp only
  split <;> rfl

theorem run_changeDirectory : (changeDirectory s arg).run .stores = s.changeDirectory arg :=
  bind_congr fun path => run_bind_congr _ (run_require s path true) fun _ => run_check _ rfl

end Script

/-- Served by the stores, an errand is what it is. -/
theorem Errand.run_stores (s : Session) (arg : PathArg) (errand : Errand) :
    (errand.script s arg).run .stores = errand.work s arg := by
  cases errand <;> simp only [script, work, Script.run_map, Script.run_openFile,
    Script.run_createFile, Script.run_appendFile, Script.run_list, Script.run_status,
    Script.run_exists, Script.run_hasKind, Script.run_resolvePath, Script.run_makeDirectory,
    Script.run_setTimes, Script.run_delete, Script.run_linkStatus, Script.run_linkTarget,
    Script.run_move, Script.run_makeLink, Session.isFile, Session.isDirectory]

/-- Served by the stores, an operation is what it is. -/
theorem Operation.run_stores (s : Session) (o : Operation) :
    (o.script s).run .stores = o.work s := by
  cases o with
  | errand e arg => exact e.run_stores s arg
  | changeDirectory arg =>
    simp only [script, work, Script.run_map, Script.run_changeDirectory]

/-- Served by the stores, bytes are handed over as they are. -/
theorem Sink.run_stores (sink : Sink) (data : Bytes) :
    (sink.script data).run .stores = sink.commit data := by
  unfold Sink.script Sink.commit
  cases sink.mode <;> rfl

end MountSpace
