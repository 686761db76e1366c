import MountSpace.Proofs.Session.Footing
import MountSpace.Proofs.Session.Growth

/-!
# Operations that follow no link of the host

Every operation hands its disk the ends of paths only, and the names above them that are missing.
Where the host would follow a link in the last place, the operation has followed the links itself,
or has been told that a directory is there.

## Main definitions

* `PathArg.Among` — a path, as a caller gives it, whose names have a property.
* `Operation.paths`, `Operation.Among` — the paths that an operation resolves.

Main statement: `Operation.tame`.
-/

namespace MountSpace

open MountSpace.Path

/-! ## Paths that are given -/

/-- The names of the path have the property, if it can be read.  A path that is not given as a text
is in normal form. -/
def PathArg.Among (P : String → Prop) : PathArg → Prop
  | .missing => True
  | .text raw => Says P raw
  | .path p => p.Normal ∧ p.Among P

/-- The paths that the operation is to resolve; the target of a new link is none of them. -/
def Operation.paths : Operation → List PathArg
  | .errand (.moveFrom dst _) src => [src, dst]
  | .errand (.moveTo src _) dst => [src, dst]
  | .errand _ arg | .changeDirectory arg => [arg]

/-- The names of the paths that the operation is to resolve have the property. -/
def Operation.Among (P : String → Prop) (o : Operation) : Prop := ∀ arg ∈ o.paths, arg.Among P

theorem PathArg.Among.of_qualified {P : String → Prop} {s : Session} {arg : PathArg} {path : Path}
    (h : arg.Among P) (hs : s.standpoint.Proper) (hat : s.standpoint.workingDirectory.Among P)
    (hq : s.qualified arg = .ok path) : path.Complete ∧ path.Among P := by
  cases arg with
  | missing => cases hq
  | text raw => exact ⟨Session.complete_of_qualified hs hq, Session.among_of_qualified hat h hq⟩
  | path p =>
    obtain ⟨q, hread, rfl⟩ := map_eq_ok.mp hq
    obtain rfl : p = q := Except.ok.inj hread
    exact ⟨Standpoint.complete_of_normal hs h.1, Path.Among.complete hat h.2⟩

/-! ## Directories that are made -/

/-- Making a directory puts no link on any way. -/
theorem Mount.Confines.of_makeDirectory {m : Mount} {site after : Site} {names : List String}
    {path : String} {res : Except Error Unit} (h : m.Confines site names)
    (hm : (m.connection.makeDirectory path).eval site = (res, after)) : m.Confines after names := by
  intro host hs
  obtain ⟨hhome, hconfined⟩ := h host hs
  have hwork := m.connection.makeDirectory_onDisk hs path
  rw [hwork, Connection.eval_changeDisk] at hm
  cases hd : (site.disk host).makeDirectory site.now path with
  | error e =>
    rw [hd] at hm
    cases hm
    rw [Site.disk_setDisk, if_pos rfl]
    exact ⟨hhome, hconfined⟩
  | ok d =>
    rw [hd] at hm
    cases hm
    rw [Site.disk_setDisk, if_pos rfl]
    exact ⟨Disk.stable_homed.makeDirectory hhome hd, hconfined.of_makeDirectory hd⟩

/-- The directories above a way are asked for, and made, without a link on the way. -/
theorem Piece.tame_makeDirectories {m : Mount} {site : Site} {names done pending : List String}
    (hp : Table.Plain names) (hc : m.Confines site names) (hf : done ++ pending <+: names) :
    (makeDirectories (m.place done) pending).Tame m.connection site := by
  induction pending generalizing done site with
  | nil => exact tame_pure ()
  | cons name rest ih =>
    rw [List.append_cons] at hf
    have hfront : done ++ [name] <+: names := (List.prefix_append _ _).trans hf
    have hhere : Table.Plain (done ++ [name]) := hp.of_prefix hfront
    have hplace : (m.place done).child [name] = m.place (done ++ [name]) :=
      m.place_child (fun n hn => hhere.ordinary n (by simp [hn]))
        (by simpa using hhere.ordinary name (by simp))
    have hstatus : (call (.status (rootText (done ++ [name])))).Tame m.connection site :=
      tame_call_of_confines rfl not_false hhere (hc.of_prefix hfront)
    have hmake : (call (.makeDirectory (rootText (done ++ [name])))).Tame m.connection site :=
      tame_call_of_confines rfl not_false hhere (hc.of_prefix hfront)
    rw [makeDirectories, hplace]
    refine hstatus.bind fun found t hrun => ?_
    obtain ⟨-, rfl⟩ := Prod.mk.inj hrun
    split
    · exact hmake.bind fun _ t hmade => ih (hc.of_makeDirectory hmade) hf
    · exact ih hc hf

namespace Script

variable {α : Type} {s : Session} {site found : Site} {path : Path} {follow : Bool} {arg : PathArg}
variable {r : Resolution}

/-! ## The ends of paths -/

theorem tame_makeParents (hl : s.Lands site follow r) : (makeParents r).Tame site := by
  unfold makeParents
  rw [hl.path_eq]
  rcases List.eq_nil_or_concat' r.path.segments with hnil | ⟨init, last, hsplit⟩
  · rw [hnil]
    exact tame_pure ()
  · rw [hsplit, Mount.place_parent?]
    refine tame_within (Piece.tame_makeDirectories hl.plain hl.confines ?_)
    rw [hsplit]
    exact List.prefix_append _ _

/-- What follows on seeing to the directory of a new entry finds no link on the way to the entry. -/
theorem tame_prepareParent_bind {f : Unit → Script α} {createParent : Bool}
    (hl : s.Lands site follow r)
    (hf : ∀ t, r.mount.Confines t r.path.segments → (f ()).Tame t) :
    (prepareParent r path createParent >>= f).Tame site := by
  have htame : (prepareParent r path createParent).Tame site := by
    unfold prepareParent
    exact .ite (fun _ => tame_pure ()) fun _ => .ite (fun _ => tame_makeParents hl)
      fun _ => tame_fail (by simp [Error.kind])
  refine htame.bind fun _ t hrun => hf t ?_
  rw [run_prepareParent] at hrun
  refine hl.prepareParent_keeps (P := fun t => r.mount.Confines t r.path.segments) ?_ ?_ hl.confines
    hrun
  · exact fun _ _ hc hmade => hc.of_makeDirectory hmade
  · exact fun _ ha => ha

/-- A primitive is handed the end of a path, and leaves its last name alone. -/
theorem tame_call (hl : s.Lands found follow r) (hc : r.mount.Confines site r.path.segments)
    (q : Primitive) (hq : q.paths = [r.path.localText]) (hfirst : ¬q.FollowsLast) :
    (within r.mount (.call q)).Tame site := by
  rw [hl.localText_eq] at hq
  exact tame_within (Piece.tame_call_of_confines hq hfirst hl.plain hc)

/-- A primitive is handed the end of a path, where no link stands. -/
theorem tame_call_end (hl : s.Lands site follow r) (hu : r.mount.Unlinked site r.path.segments)
    (q : Primitive) (hq : q.paths = [r.path.localText]) :
    (within r.mount (.call q)).Tame site := by
  rw [hl.localText_eq] at hq
  exact tame_within (Piece.tame_call_of_unlinked hq hl.plain hl.confines hu)

/-- Both ends of a move lie in the disk of one mount. -/
theorem tame_call_move {source dest : Resolution} (hfrom : s.Lands site false source)
    (hto : s.Lands site false dest) (hmount : source.mount = dest.mount) (overwrite : Bool) :
    (within source.mount (.call (.move source.path.localText dest.path.localText
      overwrite))).Tame site := by
  refine tame_within (Piece.tame_call fun path hpath => ?_)
  rcases List.mem_pair.mp hpath with rfl | rfl
  · exact ⟨_, hfrom.localText_eq, hfrom.plain, hfrom.confines, nofun⟩
  · rw [hmount]
    exact ⟨_, hto.localText_eq, hto.plain, hto.confines, nofun⟩

theorem tame_hasChildren (hl : s.Lands site follow r)
    (hu : r.mount.Unlinked site r.path.segments) : (hasChildren r).Tame site := by
  have hlist : (Piece.call (.list (rootText r.path.segments))).Tame r.mount.connection site :=
    Piece.tame_call_of_unlinked rfl hl.plain hl.confines hu
  unfold hasChildren
  rw [hl.localText_eq]
  exact tame_within (hlist.bind fun _ _ _ => Piece.tame_pure _)

theorem tame_checkReplacement {src dst : Path} {moved : Kind} {old : Status} {overwrite : Bool}
    (h : s.Footing site) (hl : s.Lands site follow r) (hold : r.status = some old) :
    (checkReplacement src dst moved r old overwrite).Tame site := by
  unfold checkReplacement
  refine .check (by simp [Error.kind]) fun _ => .ite (fun hk => ?_) fun _ => ?_
  · refine .check (by simp [Error.kind]) fun _ => ?_
    refine (tame_hasChildren hl (hl.unlinked h hold (.inr (by simp [hk])))).bind fun any t _ => ?_
    split
    · exact tame_fail (by simp [Error.kind])
    · exact tame_pure ()
  · split
    · exact tame_fail (by simp [Error.kind])
    · exact tame_pure ()

/-! ## Operations -/

variable (h : s.Footing site) (harg : arg.Among fun n => ¬EndsBlank n)

include h harg

/-- What follows on completing a path may count on its names. -/
theorem tame_qualified_bind {f : Path → Script α}
    (hf : ∀ path, path.Complete → path.Among (fun n => ¬EndsBlank n) → (f path).Tame site) :
    (ofExcept (s.qualified arg) >>= f).Tame site := by
  refine tame_ofExcept_bind (s.allowed_qualified arg) fun path hq => ?_
  obtain ⟨hp, hamong⟩ := harg.of_qualified h.proper h.among hq
  exact hf path hp hamong

theorem tame_makeLink (target : PathArg) (createParent : Bool) :
    (makeLink s target arg createParent).Tame site := by
  unfold makeLink
  refine .check (by simp [Error.kind]) fun _ =>
    tame_ofExcept_bind target.allowed_read fun target _ =>
      tame_qualified_bind h harg fun path hp hamong =>
        tame_resolve_bind h hp hamong fun r events hl => .check (by simp [Error.kind]) fun _ =>
          tame_prepareParent_bind hl fun t hc => ?_
  exact (tame_call hl hc (.makeLink _ _) rfl not_false).bind fun _ _ _ => tame_report _

theorem tame_linkTarget : (linkTarget s arg).Tame site := by
  refine tame_qualified_bind h harg fun _ hp hamong =>
    (tame_require h hp hamong).bind fun found t _ => ?_
  dsimp only
  split
  · exact tame_pure _
  · exact tame_fail (by simp [Error.kind])

theorem tame_status : (status s arg).Tame site :=
  tame_qualified_bind h harg fun _ hp hamong =>
    (tame_require h hp hamong).bind fun _ _ _ => tame_ofExcept (Session.allowed_located _ _)

theorem tame_linkStatus : (linkStatus s arg).Tame site :=
  tame_qualified_bind h harg fun _ hp hamong =>
    (tame_require h hp hamong).bind fun _ _ _ => tame_ofExcept (Session.allowed_located _ _)

theorem tame_exists : (exists_ s arg).Tame site := by
  refine Tame.attempt_bind
    (tame_qualified_bind h harg fun path hp hamong => tame_resolve h hp hamong)
    (fun r t _ => tame_pure _) fun e t he _ => ?_
  exact .ite (fun _ => tame_pure _) fun _ => tame_fail he

theorem tame_hasKind (kind : Kind) : (hasKind s arg kind).Tame site :=
  Tame.attempt_bind (tame_status h harg) (fun _ _ _ => tame_pure _) fun _ _ he _ =>
    .ite (fun _ => tame_pure _) fun _ => tame_fail he

theorem tame_resolvePath : (resolvePath s arg).Tame site :=
  tame_qualified_bind h harg fun _ hp hamong =>
    (tame_require h hp hamong).bind fun _ _ _ => tame_pure _

theorem tame_list : (list s arg).Tame site := by
  refine tame_qualified_bind h harg fun path hp hamong =>
    tame_require_bind h hp hamong fun r status events hl hs => .ite (fun _ => ?_) fun _ => ?_
  · exact tame_ofExcept_bind (Session.allowed_located _ _) fun _ _ => tame_pure _
  · refine (tame_call_end hl (hl.unlinked (h.told events) hs (.inl rfl)) (.list _) rfl).bind
      fun entries t _ => ?_
    exact tame_ofExcept_bind (allowed_mapM fun e _ => Session.allowed_located _ _) fun _ _ =>
      tame_pure _

theorem tame_openFile : (openFile s arg).Tame site :=
  tame_qualified_bind h harg fun path hp hamong =>
    tame_require_bind h hp hamong fun r status events hl hs => .check (by simp [Error.kind])
      fun _ => (tame_call_end hl (hl.unlinked (h.told events) hs (.inl rfl)) (.content _) rfl).bind
        fun _ _ _ => tame_pure _

theorem tame_createFile (overwrite createParent : Bool) :
    (createFile s arg overwrite createParent).Tame site := by
  refine tame_qualified_bind h harg fun path hp hamong =>
    tame_resolve_bind h hp hamong fun r events hl => ?_
  have hlast : ∀ t, r.mount.Confines t r.path.segments →
      ((within r.mount (.call (.write r.path.localText [] overwrite)) : Script Unit) >>= fun _ =>
        (pure ({ path }, ⟨r.mount, r.path.localText, .replace⟩) :
          Script (OutputStream × Sink))).Tame t := fun t hc =>
    (tame_call hl hc (.write _ _ _) rfl not_false).bind fun _ _ _ => tame_pure _
  dsimp only
  cases r.status with
  | some status =>
    exact .check (by simp [Error.kind]) fun _ => .check (by simp [Error.kind]) fun _ =>
      hlast _ hl.confines
  | none => exact tame_prepareParent_bind hl hlast

theorem tame_appendFile : (appendFile s arg).Tame site :=
  tame_qualified_bind h harg fun _ hp hamong =>
    (tame_require h hp hamong).bind fun _ _ _ => .check (by simp [Error.kind]) fun _ => tame_pure _

theorem tame_makeDirectory (createParent : Bool) :
    (makeDirectory s arg createParent).Tame site := by
  refine tame_qualified_bind h harg fun path hp hamong =>
    tame_resolve_bind h hp hamong fun r events hl => ?_
  cases r.status with
  | some status =>
    dsimp only
    split
    · exact tame_pure ()
    · exact tame_fail (by simp [Error.kind])
  | none =>
    exact tame_prepareParent_bind hl fun t hc => tame_call hl hc (.makeDirectory _) rfl not_false

theorem tame_delete (recursive : Bool) : (delete s arg recursive).Tame site := by
  refine tame_qualified_bind h harg fun path hp hamong =>
    Tame.attempt_bind (tame_resolve h hp hamong) (fun r t hrun => ?_) fun e t he _ => ?_
  swap
  · exact .ite (fun _ => tame_pure _) fun _ => tame_fail he
  obtain ⟨events, rfl, hl⟩ := lands_of_resolve h hp hamong hrun
  dsimp only
  cases hs : r.status with
  | none => exact tame_pure _
  | some status =>
  refine .check (by simp [Error.kind]) fun _ => .ite (fun hk => ?_) fun _ => ?_
  · simp only [Bool.and_eq_true, decide_eq_true_eq] at hk
    have hu := hl.unlinked (h.told events) hs (.inr (by simp [hk.1]))
    refine (tame_hasChildren hl hu).bind fun any t hrun => .check (by simp [Error.kind]) fun _ => ?_
    obtain ⟨more, rfl⟩ := (Session.quiet_hasChildren r).eval_eq hrun
    exact tame_call (hl.told more) (hl.told more).confines (.delete _ _) rfl not_false
  · exact tame_call hl hl.confines (.delete _ _) rfl not_false

theorem tame_setTimes (accessed modified : Option Moment) :
    (setTimes s arg accessed modified).Tame site :=
  tame_qualified_bind h harg fun _ hp hamong =>
    tame_require_bind h hp hamong fun _ _ events hl hs => .ite
      (fun _ => tame_call_end hl (hl.unlinked (h.told events) hs (.inl rfl)) (.setTimes _ _ _) rfl)
      fun _ => tame_report _

theorem tame_changeDirectory : (changeDirectory s arg).Tame site :=
  tame_qualified_bind h harg fun _ hp hamong =>
    (tame_require h hp hamong).bind fun _ _ _ => .check (by simp [Error.kind]) fun _ =>
      tame_ofExcept_bind (s.registry.allowed_lookup _ _) fun _ _ => tame_pure _

theorem tame_move {dst : PathArg} (hdst : dst.Among fun n => ¬EndsBlank n) (overwrite : Bool) :
    (move s arg dst overwrite).Tame site := by
  refine tame_qualified_bind h harg fun p hp hp' => tame_qualified_bind h hdst fun q hq hq' =>
    tame_require_bind h hp hp' fun source status events hfrom hs =>
      tame_resolve_bind (h.told events) hq hq' fun dest more hto =>
        .check (by simp [Error.kind]) fun hlocation => .check (by simp [Error.kind]) fun _ =>
          .ite (fun _ => tame_pure ()) fun _ => .check (by simp [Error.kind]) fun _ => ?_
  have hmount : source.mount = dest.mount :=
    (hfrom.told more).toEnding.mount_eq hto.toEnding (not_not.mp hlocation)
  dsimp only
  cases hold : dest.status with
  | some old =>
    refine (tame_checkReplacement ((h.told events).told more) hto hold).bind fun _ t hrun => ?_
    rw [run_checkReplacement] at hrun
    obtain ⟨last, rfl⟩ := (Session.quiet_checkReplacement p q _ dest old overwrite).eval_eq hrun
    exact tame_call_move ((hfrom.told more).told last) (hto.told last) hmount overwrite
  | none =>
    exact .check (by simp [Error.kind]) fun _ =>
      tame_call_move (hfrom.told more) hto hmount overwrite

end Script

/-- The script of an operation that is given paths without blanks at the ends of names. -/
theorem Operation.tame {s : Session} {site : Site} (h : s.Footing site) {o : Operation}
    (ho : o.Among fun n => ¬EndsBlank n) : (o.script s).Tame site := by
  cases o with
  | changeDirectory arg => exact (Script.tame_changeDirectory h (ho arg (by simp [paths]))).map _
  | errand e arg =>
    have harg : arg.Among fun n => ¬EndsBlank n := by
      refine ho arg ?_
      cases e <;> simp [paths]
    cases e with
    | openFile => exact (Script.tame_openFile h harg).map _
    | createFile overwrite createParent =>
      exact (Script.tame_createFile h harg overwrite createParent).map _
    | appendFile => exact (Script.tame_appendFile h harg).map _
    | list => exact (Script.tame_list h harg).map _
    | status => exact (Script.tame_status h harg).map _
    | exists_ => exact (Script.tame_exists h harg).map _
    | isFile | isDirectory => exact (Script.tame_hasKind h harg _).map _
    | resolvePath => exact (Script.tame_resolvePath h harg).map _
    | makeDirectory createParent => exact (Script.tame_makeDirectory h harg createParent).map _
    | setTimes accessed modified => exact (Script.tame_setTimes h harg accessed modified).map _
    | delete recursive => exact (Script.tame_delete h harg recursive).map _
    | linkStatus => exact (Script.tame_linkStatus h harg).map _
    | linkTarget => exact (Script.tame_linkTarget h harg).map _
    | moveFrom dst overwrite =>
      exact (Script.tame_move h harg (ho dst (by simp [paths])) overwrite).map _
    | moveTo src overwrite =>
      exact (Script.tame_move h (ho src (by simp [paths])) harg overwrite).map _
    | makeLink target createParent => exact (Script.tame_makeLink h harg target createParent).map _

end MountSpace
