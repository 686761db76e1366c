import MountSpace.Proofs.Session.Operations

/-!
# Change comes last

An operation that makes no parents reads until it hands one piece of work to a mount, and nothing
that comes after this piece can fail.  This is seen from its script alone, whoever serves the
primitives.

## Main definitions

* `Piece.Reads`, `Script.Reads` — work and scripts that only read.
* `Script.Sure` — scripts that cannot fail.
* `Script.Careful` — scripts that change things at the very end.
* `Operation.makesParents` — whether an operation may make missing directories.

Main statement: `Operation.careful`.
-/

namespace MountSpace

/-! ## Scripts that change things last -/

/-- The work only reads. -/
def Piece.Reads {α : Type} : Piece α → Prop
  | .ofExcept _ => True
  | .call q => q.Reads
  | .bind p f => p.Reads ∧ ∀ a, (f a).Reads

namespace Script

/-- The script only reads. -/
def Reads {α : Type} : Script α → Prop
  | .ofExcept _ | .report _ => True
  | .within _ p => p.Reads
  | .attempt x => x.Reads
  | .bind x f => x.Reads ∧ ∀ a, (f a).Reads

/-- The script cannot fail. -/
def Sure {α : Type} : Script α → Prop
  | .ofExcept r => ∃ a, r = .ok a
  | .report _ => True
  | .within _ _ => False
  | .attempt _ => False
  | .bind x f => x.Sure ∧ ∀ a, (f a).Sure

/-- The script only reads until it hands over one last piece of work; what then comes cannot
fail. -/
def Careful {α : Type} : Script α → Prop
  | .ofExcept _ | .report _ | .within _ _ => True
  | .attempt x => x.Reads
  | .bind x f => (x.Reads ∧ ∀ a, (f a).Careful) ∨ (x.Careful ∧ ∀ a, (f a).Sure)

variable {α β : Type} {x y : Script α} {f : α → Script β} {c : Prop} [Decidable c] {e : Error}

theorem Reads.careful (h : x.Reads) : x.Careful := by
  induction x with
  | ofExcept | report | within => trivial
  | attempt x => exact h
  | bind x f _ ih => exact .inl ⟨h.1, fun a => ih a (h.2 a)⟩

theorem Reads.bind (hx : x.Reads) (hf : ∀ a, (f a).Reads) : (x >>= f).Reads := ⟨hx, hf⟩

theorem Reads.map (hx : x.Reads) (g : α → β) : (g <$> x).Reads := ⟨hx, fun _ => trivial⟩

theorem Reads.ite (hx : x.Reads) (hy : y.Reads) : (if c then x else y).Reads := by
  split
  · exact hx
  · exact hy

theorem Reads.check {f : Unit → Script α} (hf : (f ()).Reads) :
    (if c then fail e >>= f else f () : Script α).Reads := by
  split
  · exact ⟨trivial, fun _ => hf⟩
  · exact hf

/-- Reading before care is taken. -/
theorem Reads.bind_careful (hx : x.Reads) (hf : ∀ a, (f a).Careful) : (x >>= f).Careful :=
  .inl ⟨hx, hf⟩

theorem Careful.bind_sure (hx : x.Careful) (hf : ∀ a, (f a).Sure) : (x >>= f).Careful :=
  .inr ⟨hx, hf⟩

theorem Careful.map (hx : x.Careful) (g : α → β) : (g <$> x).Careful :=
  .inr ⟨hx, fun a => ⟨g a, rfl⟩⟩

theorem Careful.check {f : Unit → Script α} (hf : (f ()).Careful) :
    (if c then fail e >>= f else f () : Script α).Careful := by
  split
  · exact .inl ⟨trivial, fun _ => hf⟩
  · exact hf

/-! ## What operations begin with -/

variable (s : Session) (path asked : Path) (follow : Bool) (r : Resolution)

theorem reads_advance (mount : Mount) (dir : Path) (names : List String) :
    (Piece.advance mount path asked follow dir names).Reads := by
  induction names generalizing dir with
  | nil => trivial
  | cons name rest ih =>
    refine ⟨trivial, fun found => ?_⟩
    cases found with
    | none => trivial
    | some status =>
      dsimp only
      split
      · split <;> trivial
      split
      · trivial
      split
      · trivial
      · exact ih _

theorem reads_leg (current : Path) : (leg s asked follow current).Reads := by
  refine ⟨trivial, fun mount => ⟨?_, fun _ => trivial⟩⟩
  change (Piece.walk mount current asked follow).Reads
  unfold Piece.walk
  split
  · exact ⟨trivial, fun _ => trivial⟩
  · exact reads_advance current asked follow mount _ _

theorem reads_trace (bound : ℕ) (current : Path) : (trace s asked follow bound current).Reads := by
  induction bound generalizing current with
  | zero =>
    rw [trace]
    refine (reads_leg s asked follow current).bind fun found => ?_
    obtain ⟨mount, r | ⟨link, target, rest⟩⟩ := found <;> trivial
  | succ bound ih =>
    rw [trace]
    refine (reads_leg s asked follow current).bind fun found => ?_
    obtain ⟨mount, r | ⟨link, target, rest⟩⟩ := found
    · trivial
    · exact ⟨trivial, fun next => ⟨trivial, fun _ => ih next⟩⟩

theorem reads_resolve : (resolve s path follow).Reads := reads_trace s _ follow _ _

theorem reads_require : (require s path follow).Reads := by
  refine (reads_resolve s path follow).bind fun r => ?_
  cases r.status <;> trivial

theorem reads_hasChildren : (hasChildren r).Reads := ⟨trivial, fun _ => trivial⟩

theorem reads_checkReplacement (src dst : Path) (moved : Kind) (dest : Resolution) (old : Status)
    (overwrite : Bool) : (checkReplacement src dst moved dest old overwrite).Reads := by
  unfold checkReplacement
  refine .check (.ite (.check ?_) ?_)
  · refine (reads_hasChildren dest).bind fun any => ?_
    split <;> trivial
  · split <;> trivial

/-- Without leave to make directories, seeing to the parent only looks at what is known. -/
theorem reads_prepareParent : (prepareParent r asked false).Reads := by
  unfold prepareParent
  split <;> trivial

/-! ## Operations -/

variable (arg : PathArg)

theorem reads_linkTarget : (linkTarget s arg).Reads := by
  refine ⟨trivial, fun path => (reads_require s path false).bind fun found => ?_⟩
  dsimp only
  split <;> trivial

theorem reads_status : (status s arg).Reads :=
  ⟨trivial, fun path => (reads_require s path true).bind fun _ => trivial⟩

theorem reads_linkStatus : (linkStatus s arg).Reads :=
  ⟨trivial, fun path => (reads_require s path false).bind fun _ => trivial⟩

theorem reads_exists : (exists_ s arg).Reads := by
  refine Reads.bind (x := attempt _) ⟨trivial, fun path => reads_resolve s path true⟩
    fun found => ?_
  rcases found with e | r
  · dsimp only
    split <;> trivial
  · trivial

theorem reads_hasKind (kind : Kind) : (hasKind s arg kind).Reads := by
  refine Reads.bind (x := attempt _) (reads_status s arg) fun found => ?_
  rcases found with e | r
  · dsimp only
    split <;> trivial
  · trivial

theorem reads_resolvePath : (resolvePath s arg).Reads :=
  ⟨trivial, fun path => (reads_require s path true).bind fun _ => trivial⟩

theorem reads_list : (list s arg).Reads := by
  refine ⟨trivial, fun path => (reads_require s path true).bind fun found => ?_⟩
  dsimp only
  split
  · exact ⟨trivial, fun _ => trivial⟩
  · exact ⟨trivial, fun _ => ⟨trivial, fun _ => trivial⟩⟩

theorem reads_openFile : (openFile s arg).Reads := by
  refine ⟨trivial, fun path => (reads_require s path true).bind fun found => .check ?_⟩
  exact ⟨trivial, fun _ => trivial⟩

theorem reads_appendFile : (appendFile s arg).Reads :=
  ⟨trivial, fun path => (reads_require s path true).bind fun _ => .check trivial⟩

theorem reads_changeDirectory : (changeDirectory s arg).Reads :=
  ⟨trivial, fun path => (reads_require s path true).bind fun _ =>
    .check ⟨trivial, fun _ => trivial⟩⟩

theorem careful_makeLink (target link : PathArg) : (makeLink s target link false).Careful := by
  unfold makeLink
  refine .check (Reads.bind_careful (x := ofExcept _) trivial fun target =>
    Reads.bind_careful (x := ofExcept _) trivial fun path =>
      (reads_resolve s path false).bind_careful fun r => .check ?_)
  refine (reads_prepareParent path r).bind_careful fun _ => ?_
  exact Careful.bind_sure (x := within _ _) trivial fun _ => trivial

theorem careful_createFile (overwrite : Bool) : (createFile s arg overwrite false).Careful := by
  refine Reads.bind_careful trivial fun path =>
    (reads_resolve s path true).bind_careful fun r => ?_
  have hlast : ((within r.mount (.call (.write r.path.localText [] overwrite)) : Script Unit) >>=
      fun _ => (pure ({ path }, ⟨r.mount, r.path.localText, .replace⟩) :
        Script (OutputStream × Sink))).Careful :=
    Careful.bind_sure (x := within _ _) trivial fun _ => ⟨_, rfl⟩
  dsimp only
  cases r.status with
  | some status => exact .check (.check hlast)
  | none => exact (reads_prepareParent path r).bind_careful fun _ => hlast

theorem careful_makeDirectory : (makeDirectory s arg false).Careful := by
  refine Reads.bind_careful trivial fun path =>
    (reads_resolve s path true).bind_careful fun r => ?_
  cases r.status with
  | some status =>
    dsimp only
    split <;> trivial
  | none => exact (reads_prepareParent path r).bind_careful fun _ => trivial

theorem careful_delete (recursive : Bool) : (delete s arg recursive).Careful := by
  refine Reads.bind_careful trivial fun path =>
    Reads.bind_careful (x := attempt _) (reads_resolve s path false) fun found => ?_
  rcases found with e | r
  · dsimp only
    split <;> trivial
  dsimp only
  cases r.status with
  | none => trivial
  | some status =>
    refine .check ?_
    split
    · exact (reads_hasChildren r).bind_careful fun _ => .check trivial
    · trivial

theorem careful_move (src dst : PathArg) (overwrite : Bool) :
    (move s src dst overwrite).Careful := by
  refine Reads.bind_careful trivial fun p => Reads.bind_careful trivial fun q =>
    (reads_require s p false).bind_careful fun found =>
      (reads_resolve s q false).bind_careful fun dest => .check (.check ?_)
  split
  · trivial
  refine .check ?_
  dsimp only
  cases dest.status with
  | some old =>
    exact (reads_checkReplacement p q _ dest old overwrite).bind_careful fun _ => trivial
  | none => exact .check trivial

theorem careful_setTimes (accessed modified : Option Moment) :
    (setTimes s arg accessed modified).Careful := by
  refine Reads.bind_careful trivial fun path =>
    (reads_require s path true).bind_careful fun found => ?_
  dsimp only
  split <;> trivial

end Script

/-- Whether the operation may make missing directories. -/
def Errand.makesParents : Errand → Bool
  | .createFile _ createParent | .makeDirectory createParent | .makeLink _ createParent =>
    createParent
  | _ => false

/-- Whether the operation may make missing directories. -/
def Operation.makesParents : Operation → Bool
  | .errand e _ => e.makesParents
  | .changeDirectory _ => false

/-- An operation that makes no parents changes things at the very end. -/
theorem Operation.careful (s : Session) {o : Operation} (h : o.makesParents = false) :
    (o.script s).Careful := by
  cases o with
  | changeDirectory arg => exact ((Script.reads_changeDirectory s arg).map _).careful
  | errand e arg =>
    cases e with
    | openFile => exact ((Script.reads_openFile s arg).map _).careful
    | appendFile => exact ((Script.reads_appendFile s arg).map _).careful
    | list => exact ((Script.reads_list s arg).map _).careful
    | status => exact ((Script.reads_status s arg).map _).careful
    | exists_ => exact ((Script.reads_exists s arg).map _).careful
    | isFile | isDirectory => exact ((Script.reads_hasKind s arg _).map _).careful
    | resolvePath => exact ((Script.reads_resolvePath s arg).map _).careful
    | linkStatus => exact ((Script.reads_linkStatus s arg).map _).careful
    | linkTarget => exact ((Script.reads_linkTarget s arg).map _).careful
    | createFile overwrite createParent =>
      obtain rfl : createParent = false := h
      exact (Script.careful_createFile s arg overwrite).map _
    | makeDirectory createParent =>
      obtain rfl : createParent = false := h
      exact (Script.careful_makeDirectory s arg).map _
    | makeLink target createParent =>
      obtain rfl : createParent = false := h
      exact (Script.careful_makeLink s target arg).map _
    | setTimes accessed modified => exact (Script.careful_setTimes s arg accessed modified).map _
    | delete recursive => exact (Script.careful_delete s arg recursive).map _
    | moveFrom dst overwrite => exact (Script.careful_move s arg dst overwrite).map _
    | moveTo src overwrite => exact (Script.careful_move s src arg overwrite).map _

end MountSpace
