import MountSpace.Proofs.Session.History

/-!
# What requests do

A request that reads leaves only reports.  One that writes gives up with nothing but reports, or
comes to hand one operation to the mount at which its path ends; where it may make directories
first, it does so there.

## Main definitions

* `Request.Reads` — the requests that only read.
* `Capability.attach` — the target of a new link as it is stored.

Main statements: `Session.Ending.prepareParent_keeps`, `Session.makeLink_cases`,
`Session.createFile_cases`, `Session.createFile_eq_ok`, `Session.appendFile_eq_ok`,
`Session.makeDirectory_cases`, `Session.delete_cases`, `Session.move_cases`,
`Session.setTimes_cases`.
-/

namespace MountSpace

namespace Work

variable {α β : Type} {w : Work α}

theorem Quiet.check {c : Prop} [Decidable c] {e : Error} {f : Unit → Work β}
    (h : Quiet (f ())) : Quiet (if c then throw e >>= f else f ()) := by
  split
  · exact fun site => ⟨[], by simp⟩
  · exact h

theorem Quiet.map (hw : Quiet w) (f : α → β) : Quiet (f <$> w) := by
  intro site
  rw [Action.eval_map]
  exact hw site

/-- What leaves only reports ends in the site with more reports. -/
theorem Quiet.eval_eq (hw : Quiet w) {site after : Site} {r : Except Error α}
    (h : w.eval site = (r, after)) : ∃ events, after = site.told events := by
  obtain ⟨events, hsite⟩ := hw site
  rw [h] at hsite
  exact ⟨events, hsite⟩

end Work

/-- The target as it is stored: one from the root of an unnamed store is put into the mount, if the
mount is to be named. -/
def Capability.attach (c : Capability) (target : Path) : Path :=
  if c.requiresAuthority && target.absolute && !target.location.isStated then
    target.withLocation c.location
  else target

theorem Capability.attach_segments (c : Capability) (target : Path) :
    (c.attach target).segments = target.segments := by
  unfold attach
  split <;> rfl

theorem Capability.attach_normal (c : Capability) {target : Path} (h : target.Normal) :
    (c.attach target).Normal := by
  unfold attach
  split
  · rename_i hc
    simp only [Bool.and_eq_true] at hc
    exact Path.normal_of_ordinary hc.1.2 (h.ordinary hc.1.2)
  · exact h

namespace Connection

variable (c : Connection) (path : String)

theorem quiet_list : Work.Quiet (c.list path) := Work.quiet_peek _

theorem quiet_content : Work.Quiet (c.content path) := Work.quiet_peek _

theorem quiet_status : Work.Quiet (c.status path) := Work.quiet_peek _

theorem eval_status (site : Site) :
    (c.status path).eval site = (c.statusIn site path, site) := rfl

end Connection

namespace Session

variable (s : Session) (arg : PathArg)

/-! ## Requests that read -/

theorem quiet_linkTarget : Work.Quiet (s.linkTarget arg) := by
  refine (Work.quiet_ofExcept _).bind fun path => (quiet_require s path false).bind fun found => ?_
  dsimp only
  split
  · exact Work.quiet_pure _
  · exact Work.quiet_throw _

theorem quiet_status : Work.Quiet (s.status arg) :=
  (Work.quiet_ofExcept _).bind fun path => (quiet_require s path true).bind fun _ =>
    Work.quiet_ofExcept _

theorem quiet_linkStatus : Work.Quiet (s.linkStatus arg) :=
  (Work.quiet_ofExcept _).bind fun path => (quiet_require s path false).bind fun _ =>
    Work.quiet_ofExcept _

theorem quiet_exists : Work.Quiet (s.exists_ arg) := by
  refine ((Work.quiet_ofExcept _).bind fun path => quiet_resolve s path true).attempt.bind
    fun found => ?_
  cases found with
  | ok r => exact Work.quiet_pure _
  | error e => exact (Work.quiet_pure _).ite (Work.quiet_throw _)

theorem quiet_hasKind (kind : Kind) : Work.Quiet (s.hasKind kind arg) := by
  refine (quiet_status s arg).attempt.bind fun found => ?_
  cases found with
  | ok r => exact Work.quiet_pure _
  | error e => exact (Work.quiet_pure _).ite (Work.quiet_throw _)

theorem quiet_resolvePath : Work.Quiet (s.resolvePath arg) :=
  (Work.quiet_ofExcept _).bind fun path => (quiet_require s path true).bind fun _ =>
    Work.quiet_pure _

theorem quiet_list : Work.Quiet (s.list arg) := by
  refine (Work.quiet_ofExcept _).bind fun path => (quiet_require s path true).bind fun found => ?_
  dsimp only
  split
  · exact (Work.quiet_ofExcept _).bind fun _ => Work.quiet_pure _
  · exact (Mount.quiet_within _ fun c => c.quiet_list _).bind fun _ =>
      (Work.quiet_ofExcept _).bind fun _ => Work.quiet_pure _

theorem quiet_openFile : Work.Quiet (s.openFile arg) :=
  (Work.quiet_ofExcept _).bind fun path => (quiet_require s path true).bind fun _ =>
    Work.Quiet.check ((Mount.quiet_within _ fun c => c.quiet_content _).bind fun _ =>
      Work.quiet_pure _)

theorem quiet_appendFile : Work.Quiet (s.appendFile arg) :=
  (Work.quiet_ofExcept _).bind fun path => (quiet_require s path true).bind fun _ =>
    Work.Quiet.check (Work.quiet_pure _)

theorem quiet_changeDirectory : Work.Quiet (s.changeDirectory arg) :=
  (Work.quiet_ofExcept _).bind fun path => (quiet_require s path true).bind fun _ =>
    Work.Quiet.check ((Work.quiet_ofExcept _).bind fun _ => Work.quiet_pure _)

theorem quiet_hasChildren (r : Resolution) : Work.Quiet (hasChildren r) :=
  Mount.quiet_within _ fun c => (c.quiet_list _).bind fun _ => Work.quiet_pure _

theorem quiet_checkReplacement (src dst : Path) (moved : Kind) (dest : Resolution) (old : Status)
    (overwrite : Bool) : Work.Quiet (checkReplacement src dst moved dest old overwrite) := by
  refine Work.Quiet.check (Work.Quiet.ite (Work.Quiet.check ?_) ?_)
  · exact (quiet_hasChildren dest).bind fun _ => (Work.quiet_throw _).ite (Work.quiet_pure _)
  · exact (Work.quiet_throw _).ite (Work.quiet_pure _)

/-! ## Requests that write -/

variable {s : Session} {arg : PathArg} {site after : Site} {path : Path} {follow : Bool}

theorem resolves_of_eval {r : Resolution} (h : (s.resolve path follow).eval site = (.ok r, after)) :
    s.Resolves site path follow r ∧ ∃ events, after = site.told events := by
  rw [eval_resolve] at h
  exact ⟨congrArg Prod.fst h, _, (congrArg Prod.snd h).symm⟩

theorem resolves_of_require {r : Resolution} {status : Status}
    (h : (s.require path follow).eval site = (.ok (r, status), after)) :
    s.Resolves site path follow r ∧ r.status = some status ∧
      ∃ events, after = site.told events := by
  rw [eval_require] at h
  obtain ⟨houtcome, hsite⟩ := Prod.mk.inj h
  refine ⟨?_, ?_, _, hsite.symm⟩
  all_goals
    cases htrace : (s.trace site path follow).outcome with
    | error e => rw [htrace] at houtcome; cases houtcome
    | ok found =>
      rw [htrace] at houtcome
      dsimp only at houtcome
      cases hstatus : found.status with
      | none => rw [hstatus] at houtcome; cases houtcome
      | some st =>
        rw [hstatus] at houtcome
        cases houtcome
        first | exact htrace | exact hstatus

/-- What begins with a resolution gives up there, or goes on from where the path ends. -/
theorem bind_resolve_cases {α : Type} {f : Resolution → Work α} {res : Except Error α}
    (h : (s.resolve path follow >>= f).eval site = (res, after)) :
    (∃ e events, res = .error e ∧ after = site.told events) ∨
      ∃ r events, s.Resolves site path follow r ∧ (f r).eval (site.told events) = (res, after) := by
  rcases Action.eval_bind_cases h with ⟨e, hr, rfl⟩ | ⟨r, u, hr, hrest⟩
  · obtain ⟨events, hsite⟩ := (quiet_resolve s path follow).eval_eq hr
    exact .inl ⟨e, events, rfl, hsite⟩
  · obtain ⟨hresolves, events, rfl⟩ := resolves_of_eval hr
    exact .inr ⟨r, events, hresolves, hrest⟩

/-- What needs an entry at the end of its path gives up there, or goes on from that entry. -/
theorem bind_require_cases {α : Type} {f : Resolution × Status → Work α} {res : Except Error α}
    (h : (s.require path follow >>= f).eval site = (res, after)) :
    (∃ e events, res = .error e ∧ after = site.told events) ∨
      ∃ r status events, s.Resolves site path follow r ∧ r.status = some status ∧
        (f (r, status)).eval (site.told events) = (res, after) := by
  rcases Action.eval_bind_cases h with ⟨e, hr, rfl⟩ | ⟨⟨r, status⟩, u, hr, hrest⟩
  · obtain ⟨events, hsite⟩ := (quiet_require s path follow).eval_eq hr
    exact .inl ⟨e, events, rfl, hsite⟩
  · obtain ⟨hresolves, hstatus, events, rfl⟩ := resolves_of_require hr
    exact .inr ⟨r, status, events, hresolves, hstatus, hrest⟩

/-- Setting times gives up, or hands the entry and the times to its mount. -/
theorem setTimes_cases {accessed modified : Option Moment} {res : Except Error Unit}
    (h : (s.setTimes arg accessed modified).eval site = (res, after)) :
    (∃ events, after = site.told events) ∨
      ∃ path r events, s.qualified arg = .ok path ∧ s.Resolves site path true r ∧
        (r.mount.within fun c => c.setTimes r.path.localText accessed modified).eval
          (site.told events) = (res, after) := by
  unfold setTimes at h
  rcases Action.eval_ofExcept_cases h with ⟨e, -, -, rfl⟩ | ⟨path, hpath, h⟩
  · exact .inl ⟨[], by simp⟩
  rcases bind_require_cases h with ⟨e, events, -, hsite⟩ | ⟨r, status, events, hresolves, -, h⟩
  · exact .inl ⟨events, hsite⟩
  dsimp only at h
  split at h
  · exact .inr ⟨path, r, events, hpath, hresolves, h⟩
  · rw [Work.eval_report, Site.told_told] at h
    exact .inl ⟨_, (congrArg Prod.snd h).symm⟩

/-- Deleting gives up, or hands an entry that is no root to its mount. -/
theorem delete_cases {recursive : Bool} {res : Except Error Bool}
    (h : (s.delete arg recursive).eval site = (res, after)) :
    (∃ events, after = site.told events) ∨
      ∃ path r status events, s.qualified arg = .ok path ∧ s.Resolves site path false r ∧
        r.status = some status ∧ r.path.isRoot = false ∧
        (r.mount.within fun c => c.delete r.path.localText recursive).eval
          (site.told events) = (res, after) := by
  unfold delete at h
  rcases Action.eval_ofExcept_cases h with ⟨e, -, -, rfl⟩ | ⟨path, hpath, h⟩
  · exact .inl ⟨[], by simp⟩
  rcases Action.eval_bind_cases h with ⟨e, hr, rfl⟩ | ⟨found, u, hr, h⟩
  · cases hr
  rw [Action.eval_attempt] at hr
  obtain ⟨hfound, hu⟩ := Prod.mk.inj hr
  obtain ⟨events, hsite⟩ := quiet_resolve s path false site
  obtain rfl : u = site.told events := hu.symm.trans hsite
  cases found with
  | error e =>
    dsimp only at h
    split at h <;> exact .inl ⟨events, by cases h; rfl⟩
  | ok r =>
  have hresolves : s.Resolves site path false r := by
    rw [eval_resolve] at hfound
    exact Except.ok.inj hfound
  dsimp only at h
  cases hstatus : r.status with
  | none =>
    rw [hstatus] at h
    exact .inl ⟨events, by cases h; rfl⟩
  | some status =>
  rw [hstatus] at h
  rcases Action.eval_check_cases h with ⟨-, -, rfl⟩ | ⟨hroot, h⟩
  · exact .inl ⟨events, rfl⟩
  have hroot' : r.path.isRoot = false := by simpa using hroot
  clear hr
  split at h
  · rcases Action.eval_bind_cases h with ⟨e, hc, rfl⟩ | ⟨any, u, hc, h⟩
    · obtain ⟨more, rfl⟩ := (quiet_hasChildren r).eval_eq hc
      exact .inl ⟨events ++ more, by simp⟩
    obtain ⟨more, rfl⟩ := (quiet_hasChildren r).eval_eq hc
    rw [Site.told_told] at h
    rcases Action.eval_check_cases h with ⟨-, -, rfl⟩ | ⟨-, h⟩
    · exact .inl ⟨events ++ more, rfl⟩
    · exact .inr ⟨path, r, status, events ++ more, hpath, hresolves, hstatus, hroot', h⟩
  · exact .inr ⟨path, r, status, events, hpath, hresolves, hstatus, hroot', h⟩

/-- Moving gives up or has nothing to do, or hands an entry that is no root to its mount, with a
destination there. -/
theorem move_cases {srcArg dstArg : PathArg} {overwrite : Bool} {res : Except Error Unit}
    (h : (s.move srcArg dstArg overwrite).eval site = (res, after)) :
    (∃ events, after = site.told events ∧ ((∃ e, res = .error e) ∨ res = .ok () ∧
      ∃ src dst source dest, s.qualified srcArg = .ok src ∧ s.qualified dstArg = .ok dst ∧
        s.Resolves site src false source ∧ s.Resolves site dst false dest ∧
        source.mount.location = dest.mount.location ∧ source.path = dest.path)) ∨
      ∃ src dst source dest status events, s.qualified srcArg = .ok src ∧
        s.qualified dstArg = .ok dst ∧ s.Resolves site src false source ∧
        s.Resolves site dst false dest ∧ source.status = some status ∧
        source.mount.location = dest.mount.location ∧ source.path.isRoot = false ∧
        source.path ≠ dest.path ∧ source.path.isAncestorOf dest.path = false ∧
        (dest.status = none ∧ dest.parentExists = true ∨
          ∃ old told, dest.status = some old ∧
            (checkReplacement src dst status.kind dest old overwrite).eval (site.told told) =
              (.ok (), site.told events)) ∧
        (source.mount.within fun c => c.move source.path.localText dest.path.localText
          overwrite).eval (site.told events) = (res, after) := by
  unfold move at h
  rcases Action.eval_ofExcept_cases h with ⟨e, -, rfl, rfl⟩ | ⟨src, hsrc, h⟩
  · exact .inl ⟨[], by simp, .inl ⟨e, rfl⟩⟩
  rcases Action.eval_ofExcept_cases h with ⟨e, -, rfl, rfl⟩ | ⟨dst, hdst, h⟩
  · exact .inl ⟨[], by simp, .inl ⟨e, rfl⟩⟩
  rcases bind_require_cases h with
    ⟨e, events, rfl, rfl⟩ | ⟨source, status, events, hsource, hstatus, h⟩
  · exact .inl ⟨events, rfl, .inl ⟨e, rfl⟩⟩
  dsimp only at h
  rcases bind_resolve_cases h with ⟨e, more, rfl, rfl⟩ | ⟨dest, more, hdest, h⟩
  · exact .inl ⟨events ++ more, by simp, .inl ⟨e, rfl⟩⟩
  have hdest' : s.Resolves site dst false dest := hdest
  rw [Site.told_told] at h
  rcases Action.eval_check_cases h with ⟨-, rfl, rfl⟩ | ⟨hlocation, h⟩
  · exact .inl ⟨_, rfl, .inl ⟨_, rfl⟩⟩
  have hlocation' : source.mount.location = dest.mount.location := by simpa using hlocation
  rcases Action.eval_check_cases h with ⟨-, rfl, rfl⟩ | ⟨hroot, h⟩
  · exact .inl ⟨_, rfl, .inl ⟨_, rfl⟩⟩
  split at h
  · rename_i hsame
    cases h
    exact .inl ⟨_, rfl, .inr ⟨rfl, src, dst, source, dest, hsrc, hdst, hsource, hdest',
      hlocation', hsame⟩⟩
  rename_i hother
  rcases Action.eval_check_cases h with ⟨-, rfl, rfl⟩ | ⟨hancestor, h⟩
  · exact .inl ⟨_, rfl, .inl ⟨_, rfl⟩⟩
  have hroot' : source.path.isRoot = false := by simpa using hroot
  have hancestor' : source.path.isAncestorOf dest.path = false := by simpa using hancestor
  cases hold : dest.status with
  | none =>
    rw [hold] at h
    rcases Action.eval_check_cases h with ⟨-, rfl, rfl⟩ | ⟨hparent, h⟩
    · exact .inl ⟨_, rfl, .inl ⟨_, rfl⟩⟩
    · exact .inr ⟨src, dst, source, dest, status, _, hsrc, hdst, hsource, hdest', hstatus,
        hlocation', hroot', hother, hancestor', .inl ⟨hold, by simpa using hparent⟩, h⟩
  | some old =>
    rw [hold] at h
    have hquiet := quiet_checkReplacement src dst status.kind dest old overwrite
    rcases Action.eval_bind_cases h with ⟨e, hc, rfl⟩ | ⟨⟨⟩, u, hc, h⟩
    · obtain ⟨last, rfl⟩ := hquiet.eval_eq hc
      exact .inl ⟨_, Site.told_told .., .inl ⟨e, rfl⟩⟩
    · obtain ⟨last, rfl⟩ := hquiet.eval_eq hc
      rw [Site.told_told] at h hc
      exact .inr ⟨src, dst, source, dest, status, _, hsrc, hdst, hsource, hdest', hstatus,
        hlocation', hroot', hother, hancestor', .inr ⟨old, _, hold, hc⟩, h⟩

/-- Seeing to it that a new entry has a directory: it is there, or it is made. -/
theorem prepareParent_cases {r : Resolution} {createParent : Bool} {res : Except Error Unit}
    (h : (prepareParent r path createParent).eval site = (res, after)) :
    (after = site ∧ (res = .ok () → r.parentExists = true)) ∨
      (r.parentExists = false ∧ createParent = true ∧
        (makeParents r).eval site = (res, after)) := by
  unfold prepareParent at h
  split at h
  · rename_i hp
    cases h
    exact .inl ⟨rfl, fun _ => hp⟩
  rename_i hp
  split at h
  · rename_i hc
    exact .inr ⟨by simpa using hp, hc, h⟩
  · cases h
    exact .inl ⟨rfl, fun hf => nomatch hf⟩

/-- What making one directory keeps, making several keeps; all but the last succeed. -/
theorem makeDirectories_induct {P : Site → Prop} {m : Mount} {way : List String}
    {res : Except Error Unit}
    (hstep : ∀ {site after : Site} {made : Except Error Unit} {names : List String},
      made = .ok () ∨ made = res → names <+: way → names ≠ [] → P site →
      (m.connection.makeDirectory (Path.rootText names)).eval site = (made, after) → P after)
    {done names : List String} (hway : done ++ names = way)
    (ho : ∀ n ∈ way, Ordinary n) (hP : P site)
    (h : (makeDirectories m.connection (m.place done) names).eval site = (res, after)) :
    P after := by
  induction names generalizing done site with
  | nil => cases h; exact hP
  | cons name rest ih =>
    unfold makeDirectories at h
    have hdone : ∀ n ∈ done, Ordinary n := fun n hn => ho n (by simp [← hway, hn])
    have hname : ∀ n ∈ [name], Ordinary n := fun n hn =>
      ho n (by simp [← hway, List.mem_singleton.mp hn])
    have hnext : (done ++ [name]) ++ rest = way := by simpa using hway
    rw [m.place_child hdone hname] at h
    dsimp only at h
    rcases Action.eval_bind_cases h with ⟨e, hq, -⟩ | ⟨found, u, hq, h⟩
    · rw [Connection.eval_status] at hq
      obtain ⟨-, rfl⟩ := Prod.mk.inj hq
      exact hP
    rw [Connection.eval_status] at hq
    obtain ⟨-, rfl⟩ := Prod.mk.inj hq
    clear hq
    split at h
    · rcases Action.eval_bind_cases h with ⟨e, hm, rfl⟩ | ⟨⟨⟩, mid, hm, h⟩
      · exact hstep (.inr rfl) ⟨rest, hnext⟩ (by simp) hP hm
      · exact ih hnext (hstep (.inl rfl) ⟨rest, hnext⟩ (by simp) hP hm) h
    · exact ih hnext hP h

/-- The directories above an end are made from the root of its mount on. -/
theorem Ending.eval_makeParents {r : Resolution} (h : s.Ending site follow r) (start : Site) :
    (makeParents r).eval start = (r.mount.within fun c =>
      makeDirectories c (r.mount.place []) r.path.segments.dropLast).eval start := by
  unfold makeParents
  rcases List.eq_nil_or_concat' r.path.segments with hnil | ⟨init, last, hsplit⟩
  · have hparent : r.path.parent? = none := by
      rw [h.path_eq, hnil]
      rfl
    rw [hparent, hnil, Mount.eval_within]
    rfl
  · have hparent : r.path.parent? = some (r.mount.place init) := by
      rw [h.path_eq, hsplit, Mount.place_parent?]
    rw [hparent, hsplit, List.dropLast_concat]
    rfl

/-- What making one directory keeps is kept when a new entry is seen to have one. -/
theorem Ending.prepareParent_keeps {P : Site → Prop} {r : Resolution} {createParent : Bool}
    (h : s.Ending site follow r)
    (hstep : ∀ {site after : Site} {res : Except Error Unit} {names : List String},
      names <+: r.path.segments.dropLast → names ≠ [] → P site →
      (r.mount.connection.makeDirectory (Path.rootText names)).eval site = (res, after) → P after)
    (hback : ∀ {before after : Site}, P before → P after → P (before.restoreTables after))
    {start : Site} {res : Except Error Unit} (hP : P start)
    (hp : (prepareParent r path createParent).eval start = (res, after)) : P after := by
  rcases prepareParent_cases hp with ⟨rfl, -⟩ | ⟨-, -, hp⟩
  · exact hP
  rw [h.eval_makeParents, Mount.eval_within] at hp
  have ho : ∀ n ∈ r.path.segments.dropLast, Ordinary n := fun n hn =>
    h.ordinary n (List.dropLast_subset _ hn)
  rcases hm : (makeDirectories r.mount.connection (r.mount.place [])
    r.path.segments.dropLast).eval start with ⟨e | u, mid⟩ <;> rw [hm] at hp
  · have hmid := makeDirectories_induct (fun _ => hstep) (List.nil_append _) ho hP hm
    cases hp
    split
    · exact hback hP hmid
    · exact hmid
  · cases hp
    exact makeDirectories_induct (fun _ => hstep) (List.nil_append _) ho hP hm

/-- Making a directory once its path is resolved. -/
theorem eval_makeDirectory {r : Resolution} (hq : s.qualified arg = .ok path)
    (hr : s.Resolves site path true r) (createParent : Bool) :
    (s.makeDirectory arg createParent).eval site =
      (match r.status with
        | some status => if createParent && status.kind = .directory then pure ()
          else throw (.entryExists path.text)
        | none => do
          prepareParent r path createParent
          r.mount.within fun c => c.makeDirectory r.path.localText : Work Unit).eval
        (site.told (hopReports (s.trace site path true).hops)) := by
  have htrace : (s.trace site path true).outcome = .ok r := hr
  unfold makeDirectory
  rw [hq, Action.eval_bind, Action.eval_ofExcept]
  dsimp only
  obtain ⟨last, mount, _ | status, parentExists⟩ := r
  all_goals rw [Action.eval_bind, eval_resolve, htrace]

/-- Making a directory gives up, or sees to its directory and hands the path to its mount. -/
theorem makeDirectory_cases {createParent : Bool} {res : Except Error Unit}
    (h : (s.makeDirectory arg createParent).eval site = (res, after)) :
    (∃ events, after = site.told events ∧ (res = .ok () → ∃ path r status,
        s.qualified arg = .ok path ∧ s.Resolves site path true r ∧ r.status = some status ∧
          status.kind = .directory)) ∨
      ∃ path r events ready mid, s.qualified arg = .ok path ∧ s.Resolves site path true r ∧
        r.status = none ∧ (prepareParent r path createParent).eval (site.told events) =
          (ready, mid) ∧
        ((∃ e, ready = .error e ∧ res = .error e ∧ after = mid) ∨
          ready = .ok () ∧
            (r.mount.within fun c => c.makeDirectory r.path.localText).eval mid =
              (res, after)) := by
  unfold makeDirectory at h
  rcases Action.eval_ofExcept_cases h with ⟨e, -, rfl, rfl⟩ | ⟨path, hpath, h⟩
  · exact .inl ⟨[], by simp, nofun⟩
  rcases bind_resolve_cases h with ⟨e, events, rfl, rfl⟩ | ⟨r, events, hresolves, h⟩
  · exact .inl ⟨events, rfl, nofun⟩
  cases hstatus : r.status with
  | some status =>
    rw [hstatus] at h
    dsimp only at h
    split at h
    · rename_i hdir
      cases h
      have hk : status.kind = .directory := by
        simp only [Bool.and_eq_true, decide_eq_true_eq] at hdir
        exact hdir.2
      exact .inl ⟨events, rfl, fun _ => ⟨path, r, status, hpath, hresolves, hstatus, hk⟩⟩
    · cases h
      exact .inl ⟨events, rfl, nofun⟩
  | none =>
    rw [hstatus] at h
    refine .inr ⟨path, r, events, ?_⟩
    rcases Action.eval_bind_cases h with ⟨e, hp, rfl⟩ | ⟨⟨⟩, mid, hp, h⟩
    · exact ⟨_, _, hpath, hresolves, hstatus, hp, .inl ⟨e, rfl, rfl, rfl⟩⟩
    · exact ⟨_, _, hpath, hresolves, hstatus, hp, .inr ⟨rfl, h⟩⟩

/-- Creating a file gives up, or sees to its directory and has an empty file written by its
mount. -/
theorem createFile_cases {overwrite createParent : Bool} {res : Except Error (OutputStream × Sink)}
    (h : (s.createFile arg overwrite createParent).eval site = (res, after)) :
    (∃ e events, res = .error e ∧ after = site.told events) ∨
      ∃ path r events ready mid, s.qualified arg = .ok path ∧ s.Resolves site path true r ∧
        (r.status = none ∧ (prepareParent r path createParent).eval (site.told events) =
            (ready, mid) ∨
          (∃ status, r.status = some status ∧ status.kind ≠ .directory) ∧ overwrite = true ∧
            ready = .ok () ∧ mid = site.told events) ∧
        ((∃ e, ready = .error e ∧ res = .error e ∧ after = mid) ∨
          ready = .ok () ∧ ∃ done,
            (r.mount.within fun c => c.write r.path.localText [] overwrite).eval mid =
              (done, after) ∧
            res = done.map fun _ => ({ path }, ⟨r.mount, r.path.localText, .replace⟩)) := by
  unfold createFile at h
  rcases Action.eval_ofExcept_cases h with ⟨e, -, rfl, rfl⟩ | ⟨path, hpath, h⟩
  · exact .inl ⟨e, [], rfl, by simp⟩
  rcases bind_resolve_cases h with hfailed | ⟨r, events, hresolves, h⟩
  · exact .inl hfailed
  have hlast : ∀ mid, ((r.mount.within fun c => c.write r.path.localText [] overwrite) >>= fun _ =>
      (pure ({ path }, ⟨r.mount, r.path.localText, .replace⟩) : Work (OutputStream × Sink))).eval
        mid = (res, after) → ∃ done,
      (r.mount.within fun c => c.write r.path.localText [] overwrite).eval mid = (done, after) ∧
        res = done.map fun _ => ({ path }, ⟨r.mount, r.path.localText, .replace⟩) := by
    intro mid hw
    rcases Action.eval_bind_cases hw with ⟨e, hw', rfl⟩ | ⟨⟨⟩, u, hw', hp⟩
    · exact ⟨_, hw', rfl⟩
    · cases hp
      exact ⟨_, hw', rfl⟩
  cases hstatus : r.status with
  | some status =>
    rw [hstatus] at h
    rcases Action.eval_check_cases h with ⟨-, rfl, rfl⟩ | ⟨hk, h⟩
    · exact .inl ⟨_, events, rfl, rfl⟩
    rcases Action.eval_check_cases h with ⟨-, rfl, rfl⟩ | ⟨how, h⟩
    · exact .inl ⟨_, events, rfl, rfl⟩
    · exact .inr ⟨path, r, events, .ok (), _, hpath, hresolves,
        .inr ⟨⟨status, hstatus, hk⟩, by simpa using how, rfl, rfl⟩, .inr ⟨rfl, hlast _ h⟩⟩
  | none =>
    rw [hstatus] at h
    refine .inr ⟨path, r, events, ?_⟩
    rcases Action.eval_bind_cases h with ⟨e, hp, rfl⟩ | ⟨⟨⟩, mid, hp, h⟩
    · exact ⟨_, _, hpath, hresolves, .inl ⟨hstatus, hp⟩, .inl ⟨e, rfl, rfl, rfl⟩⟩
    · exact ⟨_, _, hpath, hresolves, .inl ⟨hstatus, hp⟩, .inr ⟨rfl, hlast _ h⟩⟩

/-- A file that is created is written by its mount, when its directory has been seen to or
something other than a directory may be overwritten. -/
theorem createFile_eq_ok {overwrite createParent : Bool} {stream : OutputStream} {sink : Sink}
    (h : (s.createFile arg overwrite createParent).eval site = (.ok (stream, sink), after)) :
    ∃ path r events mid, s.qualified arg = .ok path ∧ s.Resolves site path true r ∧
      (r.status = none ∧ (prepareParent r path createParent).eval (site.told events) =
          (.ok (), mid) ∨
        (∃ status, r.status = some status ∧ status.kind ≠ .directory) ∧ overwrite = true ∧
          mid = site.told events) ∧
      (r.mount.within fun c => c.write r.path.localText [] overwrite).eval mid = (.ok (), after) ∧
      stream = { path } ∧ sink = ⟨r.mount, r.path.localText, .replace⟩ := by
  rcases createFile_cases h with ⟨e, -, hf, -⟩ |
    ⟨path, r, events, ready, mid, hpath, hr, hready, ⟨e, -, hf, -⟩ | ⟨rfl, done, hwrite, hdone⟩⟩
  · cases hf
  · cases hf
  cases done with
  | error e => cases hdone
  | ok u =>
    cases hdone
    refine ⟨path, r, events, mid, hpath, hr, ?_, hwrite, rfl, rfl⟩
    rcases hready with hnone | ⟨hsome, how, -, hmid⟩
    · exact .inl hnone
    · exact .inr ⟨hsome, how, hmid⟩

/-- Where a file is to be made or written anew, there is no directory. -/
theorem kind_ne_of_ready {r : Resolution} {p q : Prop} (h : r.status = none ∧ p ∨
    (∃ status, r.status = some status ∧ status.kind ≠ .directory) ∧ q) :
    ∀ status, r.status = some status → status.kind ≠ .directory := by
  intro status hs
  rcases h with ⟨hnone, -⟩ | ⟨⟨found, hfound, hkind⟩, -⟩
  · cases hnone.symm.trans hs
  · obtain rfl : found = status := Option.some.inj (hfound.symm.trans hs)
    exact hkind

/-- A stream that appends is given out for an entry that is there and is no directory. -/
theorem appendFile_eq_ok {stream : OutputStream} {sink : Sink}
    (h : (s.appendFile arg).eval site = (.ok (stream, sink), after)) :
    ∃ path r status events, s.qualified arg = .ok path ∧ s.Resolves site path true r ∧
      r.status = some status ∧ status.kind ≠ .directory ∧ after = site.told events ∧
      stream = { path } ∧ sink = ⟨r.mount, r.path.localText, .extend⟩ := by
  unfold appendFile at h
  obtain ⟨path, hpath, h⟩ := Action.eval_ofExcept_eq_ok h
  obtain ⟨⟨r, status⟩, u, hr, h⟩ := Action.eval_bind_eq_ok h
  obtain ⟨hresolves, hstatus, events, rfl⟩ := resolves_of_require hr
  obtain ⟨hk, h⟩ := Action.eval_check_eq_ok h
  cases h
  exact ⟨path, r, status, events, hpath, hresolves, hstatus, hk, rfl, rfl, rfl⟩

/-- Making a link gives up, or sees to its directory and hands the link to its mount. -/
theorem makeLink_cases {target link : PathArg} {createParent : Bool} {res : Except Error Unit}
    (h : (s.makeLink target link createParent).eval site = (res, after)) :
    (∃ e events, res = .error e ∧ after = site.told events) ∨
      ∃ path r events ready mid, s.qualified link = .ok path ∧ s.Resolves site path false r ∧
        r.status = none ∧ (prepareParent r path createParent).eval (site.told events) =
          (ready, mid) ∧
        ((∃ e, ready = .error e ∧ res = .error e ∧ after = mid) ∨
          ready = .ok () ∧ ∃ t done made events, target.read = .ok t ∧
            (r.mount.within fun c => c.makeLink r.path.localText
              (r.mount.capability.attach t).text).eval mid = (done, made) ∧
            res = done ∧ after = made.told events) := by
  unfold makeLink at h
  rcases Action.eval_check_cases h with ⟨-, rfl, rfl⟩ | ⟨-, h⟩
  · exact .inl ⟨_, [], rfl, by simp⟩
  rcases Action.eval_ofExcept_cases h with ⟨e, -, rfl, rfl⟩ | ⟨target, htarget, h⟩
  · exact .inl ⟨e, [], rfl, by simp⟩
  rcases Action.eval_ofExcept_cases h with ⟨e, -, rfl, rfl⟩ | ⟨path, hpath, h⟩
  · exact .inl ⟨e, [], rfl, by simp⟩
  rcases bind_resolve_cases h with hfailed | ⟨r, events, hresolves, h⟩
  · exact .inl hfailed
  rcases Action.eval_check_cases h with ⟨-, rfl, rfl⟩ | ⟨hstatus, h⟩
  · exact .inl ⟨_, events, rfl, rfl⟩
  refine .inr ⟨path, r, events, ?_⟩
  have hstatus' : r.status = none := by simpa using hstatus
  rcases Action.eval_bind_cases h with ⟨e, hp, rfl⟩ | ⟨⟨⟩, mid, hp, h⟩
  · exact ⟨_, _, hpath, hresolves, hstatus', hp, .inl ⟨e, rfl, rfl, rfl⟩⟩
  refine ⟨_, mid, hpath, hresolves, hstatus', hp, .inr ⟨rfl, ?_⟩⟩
  rcases Action.eval_bind_cases h with ⟨e, hw, rfl⟩ | ⟨⟨⟩, made, hw, h⟩
  · exact ⟨target, _, _, [], htarget, hw, rfl, by simp⟩
  · cases h
    exact ⟨target, _, made, _, htarget, hw, rfl, rfl⟩

end Session

/-- A request that only reads. -/
def Request.Reads : Request → Prop
  | .makeLink .. | .createFile .. | .makeDirectory .. | .delete .. | .move .. | .setTimes .. =>
    False
  | _ => True

theorem Request.Reads.quiet {q : Request} (h : q.Reads) (s : Session) : (q.work s).Quiet := by
  cases q with
  | linkTarget path => exact (s.quiet_linkTarget _).map _
  | status path => exact (s.quiet_status _).map _
  | linkStatus path => exact (s.quiet_linkStatus _).map _
  | exists_ path => exact (s.quiet_exists _).map _
  | isFile path => exact (s.quiet_hasKind _ .file).map _
  | isDirectory path => exact (s.quiet_hasKind _ .directory).map _
  | resolvePath path => exact (s.quiet_resolvePath _).map _
  | list path => exact (s.quiet_list _).map _
  | openFile path => exact (s.quiet_openFile _).map _
  | appendFile path => exact (s.quiet_appendFile _).bind fun _ => Work.quiet_pure _
  | changeDirectory path => exact (s.quiet_changeDirectory _).map _
  | makeLink | createFile | makeDirectory | delete | move | setTimes => exact h.elim

end MountSpace
