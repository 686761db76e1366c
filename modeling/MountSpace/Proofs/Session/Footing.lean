import MountSpace.Proofs.Session.Tame
import MountSpace.Proofs.Session.Tidy

/-!
# Walks that follow no link of the host

A walk asks a mount for one name after the other and goes on from directories only, so it asks for
nothing behind a link.  As no name ends with a blank, the place that a disk looks at is the one that
the walk means.

## Main definitions

* `Session.Footing` — what walks count on: homes that are directories, and no blanks at the ends of
  names.
* `Session.Lands` — where a path ends, with directories of the host only on the way.

Main statements: `Script.tame_resolve`, `Session.Resolves.lands`, `Session.Lands.unlinked`.
-/

namespace MountSpace

open MountSpace.Path

/-! ## Outcomes that are no refusal -/

theorem Registry.allowed_lookup (r : Registry) (path named : Path) :
    Allowed (r.lookup path named) := by
  unfold lookup
  split
  · exact allowed_error (by simp [Error.kind])
  · exact allowed_error (by simp [Error.kind])
  · split
    · exact allowed_ok _
    · exact .ite (allowed_error (by simp [Error.kind])) (allowed_error (by simp [Error.kind]))
  · split
    · exact allowed_ok _
    · exact allowed_error (by simp [Error.kind])

theorem Atlas.allowed_onward (m : Mount) (link target asked : Path) (rest : List String) :
    Allowed (onward m link target rest asked) := by
  unfold onward
  refine .ite (allowed_error (by simp [Error.kind])) (.ite ?_ (.ite (allowed_ok _) (allowed_ok _)))
  split
  · exact allowed_ok _
  · exact allowed_error (by simp [Error.kind])

theorem PathArg.allowed_read (arg : PathArg) : Allowed arg.read :=
  allowed_mapError (fun _ => by simp [Error.kind]) _

namespace Session

theorem allowed_qualified (s : Session) (arg : PathArg) : Allowed (s.qualified arg) :=
  arg.allowed_read.map _

theorem allowed_qualifyTarget (link target : Path) : Allowed (qualifyTarget link target) := by
  unfold qualifyTarget
  refine .ite (allowed_ok _) (.ite ?_ (allowed_ok _))
  split
  · exact allowed_ok _
  · exact allowed_error (by simp [Error.kind])

theorem allowed_located (status : Status) (path : Path) : Allowed (located status path) := by
  unfold located
  split
  · exact (allowed_qualifyTarget path _).bind fun _ _ => allowed_ok _
  · exact allowed_ok _

/-! ## What walks count on -/

/-- The client stands at a path without blanks at the ends of names, and all links lead to such
paths; disks have their homes, and whatever stands on one stands in something. -/
structure Footing (s : Session) (site : Site) : Prop where
  proper : s.standpoint.Proper
  among : s.standpoint.workingDirectory.Among fun n => ¬EndsBlank n
  links : site.LinksAmong (fun n => ¬EndsBlank n) s.registry
  homed : ∀ m ∈ s.registry.mounts, ∀ host, m.backend.storage = .disk host →
    (site.disk host).Homed
  grounded : ∀ host, (site.disk host).Grounded

namespace Footing

variable {s : Session} {site : Site} {m : Mount} {names front : List String} {name host : String}

theorem told (h : s.Footing site) (events : List Event) : s.Footing (site.told events) :=
  ⟨h.proper, h.among, ⟨h.links.disk, h.links.table⟩, h.homed, h.grounded⟩

variable (h : s.Footing site) (hm : m ∈ s.registry.mounts) (hp : Table.Plain names)

include h hm hp

/-- The next name is asked for without a link on the way. -/
theorem confines_concat (hc : (s.atlas site).Confirmed m names) :
    m.Confines site (names ++ [name]) := by
  intro host hs
  have hhome := h.homed m hm host hs
  obtain ⟨hopen, hdir⟩ := Mount.directory_of_confirmed hs hhome hp hc
  exact ⟨hhome, Disk.confined_concat hopen hdir⟩

theorem confines_of_dropLast (hc : (s.atlas site).Confirmed m names.dropLast) :
    m.Confines site names := by
  rcases List.eq_nil_or_concat' names with rfl | ⟨init, last, rfl⟩
  · exact fun host hs => ⟨h.homed m hm host hs, Disk.confined_nil _⟩
  · rw [List.dropLast_concat] at hc
    exact h.confines_concat hm (hp.of_prefix (List.prefix_append _ _)) hc

/-- There is no link beyond a name that is missing either. -/
theorem confines_of_missing (hf : front ++ [name] <+: names) (hc : (s.atlas site).Confirmed m front)
    (hmissing : (s.atlas site).lstat m (front ++ [name]) = .ok none) : m.Confines site names := by
  intro host hs
  have hhome := h.homed m hm host hs
  have hplain : Table.Plain (front ++ [name]) := hp.of_prefix hf
  obtain ⟨hopen, hdir⟩ :=
    Mount.directory_of_confirmed hs hhome (hplain.of_prefix (List.prefix_append _ _)) hc
  have hfree := Mount.find?_of_missing hs hhome hplain hc hmissing
  exact ⟨hhome, Disk.confined_of_missing (h.grounded host) hf (Disk.confined_concat hopen hdir)
    hfree⟩

end Footing

end Session

/-! ## Walks -/

section Walks

variable {s : Session} {site : Site} {m : Mount} {names : List String}
variable {path asked current : Path} {follow : Bool}

/-- A primitive that is handed one path and leaves its last name alone. -/
theorem Piece.tame_call_of_confines {q : Primitive} (hq : q.paths = [rootText names])
    (hfirst : ¬q.FollowsLast) (hp : Table.Plain names) (hc : m.Confines site names) :
    (call q).Tame m.connection site := by
  refine tame_call fun path hpath => ?_
  rw [hq] at hpath
  exact ⟨names, List.mem_singleton.mp hpath, hp, hc, fun hf => absurd hf hfirst⟩

/-- A primitive that is handed one path, at whose end stands no link. -/
theorem Piece.tame_call_of_unlinked {q : Primitive} (hq : q.paths = [rootText names])
    (hp : Table.Plain names) (hc : m.Confines site names) (hu : m.Unlinked site names) :
    (call q).Tame m.connection site := by
  refine tame_call fun path hpath => ?_
  rw [hq] at hpath
  exact ⟨names, List.mem_singleton.mp hpath, hp, hc, fun _ => hu⟩

/-- A walk goes on from directories only. -/
theorem Piece.tame_advance (h : s.Footing site) (hm : m ∈ s.registry.mounts)
    {done pending : List String} (hp : Table.Plain (done ++ pending))
    (hc : (s.atlas site).Confirmed m done) :
    (advance m path asked follow (m.place done) pending).Tame m.connection site := by
  induction pending generalizing done with
  | nil => exact tame_pure _
  | cons name rest ih =>
    rw [List.append_cons] at hp
    have hdone : Table.Plain done := hp.of_prefix (by simp)
    have hhere : Table.Plain (done ++ [name]) := hp.of_prefix (List.prefix_append _ _)
    have hplace : (m.place done).child [name] = m.place (done ++ [name]) :=
      m.place_child hdone.ordinary (by simpa using hhere.ordinary name (by simp))
    have hcall : (call (.status (rootText (done ++ [name])))).Tame m.connection site :=
      tame_call_of_confines rfl not_false hhere (h.confines_concat hm hdone hc)
    rw [advance, hplace]
    refine hcall.bind fun found t hrun => ?_
    rw [eval_status] at hrun
    obtain ⟨hstatus, rfl⟩ := Prod.mk.inj hrun
    cases found with
    | none => exact tame_pure _
    | some status =>
      dsimp only
      split
      · split
        · exact tame_pure _
        · exact tame_fail (by simp [Error.kind])
      rename_i hlink
      split
      · exact tame_pure _
      rename_i hrest
      split
      · exact tame_fail (by simp [Error.kind])
      rename_i hfile
      have hdir : (s.atlas site).IsDirectory m (done ++ [name]) := by
        refine ⟨status, hstatus, ?_⟩
        cases hkind : status.kind <;> simp_all
      exact ih hp (hc.concat hdir)

theorem Piece.tame_walk (h : s.Footing site) (hm : m ∈ s.registry.mounts)
    (hp : Table.Plain names) :
    (walk m (m.place names) asked follow).Tame m.connection site := by
  have hnil : (s.atlas site).Confirmed m [] := Atlas.confirmed_nil _ m
  unfold walk
  split
  · have hroot : m.Confines site [] := h.confines_of_dropLast hm (List.forall_mem_nil _) hnil
    have hcall : (call (.status "/")).Tame m.connection site :=
      tame_call_of_confines rfl not_false (List.forall_mem_nil _) hroot
    exact hcall.bind fun found t _ => tame_pure _
  · have hnames : Table.Plain ([] ++ names) := hp
    exact tame_advance h hm hnames hnil

namespace Script

theorem tame_leg (h : s.Footing site) (habs : current.absolute = true)
    (hp : Table.Plain current.segments) : (leg s asked follow current).Tame site := by
  refine tame_ofExcept_bind (s.registry.allowed_lookup current asked) fun m hl => ?_
  have hplace := m.eq_place (Registry.location_of_lookup hl).symm habs
  refine (tame_within ?_).bind fun found t _ => tame_pure _
  rw [hplace]
  exact Piece.tame_walk h (Registry.mem_of_lookup hl) hp

/-- Every link that is followed leads to names without blanks at their ends. -/
theorem tame_trace (h : s.Footing site) {bound : ℕ} (habs : current.absolute = true)
    (hp : Table.Plain current.segments) : (trace s asked follow bound current).Tame site := by
  induction bound generalizing current site with
  | zero =>
    rw [trace]
    refine (tame_leg h habs hp).bind fun found t _ => ?_
    obtain ⟨m, r | ⟨link, target, rest⟩⟩ := found
    · exact tame_pure r
    · exact tame_fail (by simp [Error.kind])
  | succ bound ih =>
    rw [trace]
    refine (tame_leg h habs hp).bind fun found t hrun => ?_
    rw [eval_leg] at hrun
    obtain ⟨hleg, rfl⟩ := Prod.mk.inj hrun
    obtain ⟨m, r | ⟨link, target, rest⟩⟩ := found
    · exact tame_pure r
    refine tame_ofExcept_bind (Atlas.allowed_onward m link target asked rest) fun next hnext => ?_
    refine (tame_report _).bind fun _ t hrun => ?_
    obtain ⟨-, rfl⟩ := Prod.mk.inj hrun
    obtain ⟨hna, hno⟩ :=
      Atlas.ordinary_of_met (s.targetsNormal site) habs hp.ordinary hleg hnext
    have hamong := Atlas.among_of_met (s.targetsAmong h.links) habs hp.ordinary
      (fun n hn => (hp n hn).2) hleg hnext
    exact ih (h.told _) hna fun n hn => ⟨hno n hn, hamong n hn⟩

end Script

end Walks

/-! ## Where paths end -/

namespace Session

variable {s : Session} {site : Site} {path : Path} {follow : Bool} {r : Resolution}

/-- The end of a path, with names as a disk reads them and no link of the host on the way. -/
structure Lands (s : Session) (site : Site) (follow : Bool) (r : Resolution) : Prop
    extends s.Ending site follow r where
  plain : Table.Plain r.path.segments
  confines : r.mount.Confines site r.path.segments

theorem Lands.told (h : s.Lands site follow r) (events : List Event) :
    s.Lands (site.told events) follow r :=
  ⟨⟨h.ordinary, h.path_eq, h.owner, h.arrives⟩, h.plain, h.confines⟩

/-- **A path ends behind directories of the host only.** -/
theorem Resolves.lands (hr : s.Resolves site path follow r) (h : s.Footing site)
    (hp : path.Complete) (hamong : path.Among fun n => ¬EndsBlank n) : s.Lands site follow r := by
  have hend := hr.ending hp.normal hp.absolute
  have hnames := Atlas.among_of_resolve (s.targetsNormal site) (s.targetsAmong h.links) hp.normal
    hp.absolute hamong hr
  have hplain : Table.Plain r.path.segments := fun n hn => ⟨hend.ordinary n hn, hnames n hn⟩
  have hm := Registry.mem_of_lookup hend.owner
  refine ⟨hend, hplain, ?_⟩
  rcases hend.arrives with ⟨-, -, hc, -⟩ | ⟨-, -, front, name, hway, hc, hmissing⟩
  · exact h.confines_of_dropLast hm hplain hc
  · exact h.confines_of_missing hm hplain hway.1 hc hmissing

/-- No link of the host stands where links are followed, or where something else is reported. -/
theorem Lands.unlinked (hl : s.Lands site follow r) (h : s.Footing site) {status : Status}
    (hs : r.status = some status) (hk : follow = true ∨ status.kind ≠ .link) :
    r.mount.Unlinked site r.path.segments := by
  intro host hstorage text hnode
  have hhome := h.homed r.mount (Registry.mem_of_lookup hl.owner) host hstorage
  rcases hl.arrives with ⟨-, hstatus, -, hfollow⟩ | ⟨-, hnone, -⟩
  swap
  · rw [hs] at hnone
    cases hnone
  rw [hs] at hstatus
  have hdisk : (site.disk host).status (rootText r.path.segments) = .ok (some status) :=
    (Mount.statusIn_disk hstorage site _).symm.trans hstatus
  obtain ⟨-, entry, hfind, hreport⟩ := hhome.open_of_status hl.ordinary hdisk
  rw [hl.plain.settle_eq] at hfind
  rw [HostTree.node?, hfind] at hnode
  have hkind : status.kind = .link := by
    rw [Disk.kind_of_report hreport, Option.some.inj hnode, Node.kind]
  rcases hk with hf | hk
  swap
  · exact hk hkind
  by_cases hnil : r.path.segments = []
  · have hbase := HostTree.Base.node hhome
    rw [HostTree.node?, ← hnil, hfind, hnode] at hbase
    cases hbase
  · exact hfollow hf hnil status hs hkind

end Session

namespace Script

variable {α : Type} {s : Session} {site : Site} {path : Path} {follow : Bool}
variable (h : s.Footing site) (hp : path.Complete) (hamong : path.Among fun n => ¬EndsBlank n)

include h hp hamong

/-- **Resolving follows no link of the host.** -/
theorem tame_resolve : (resolve s path follow).Tame site := by
  refine tame_trace h (by simpa using hp.absolute) ?_
  rw [Atlas.start_segments]
  exact fun n hn => ⟨hp.normal.ordinary hp.absolute n hn, hamong n hn⟩

theorem lands_of_resolve {r : Resolution} {after : Site}
    (hrun : ((resolve s path follow).run .stores).eval site = (.ok r, after)) :
    ∃ events, after = site.told events ∧ s.Lands (site.told events) follow r := by
  rw [run_resolve, Session.eval_resolve] at hrun
  obtain ⟨hr, rfl⟩ := Prod.mk.inj hrun
  have hresolves : s.Resolves site path follow r := hr
  exact ⟨_, rfl, (hresolves.lands h hp hamong).told _⟩

/-- What follows on resolving a path may count on where the path ends. -/
theorem tame_resolve_bind {f : Resolution → Script α}
    (hf : ∀ r events, s.Lands (site.told events) follow r → (f r).Tame (site.told events)) :
    (resolve s path follow >>= f).Tame site := by
  refine (tame_resolve h hp hamong).bind fun r t hrun => ?_
  obtain ⟨events, rfl, hl⟩ := lands_of_resolve h hp hamong hrun
  exact hf r events hl

theorem tame_require : (require s path follow).Tame site := by
  refine (tame_resolve h hp hamong).bind fun r t _ => ?_
  cases r.status with
  | none => exact tame_fail (by simp [Error.kind])
  | some status => exact tame_pure _

theorem tame_require_bind {f : Resolution × Status → Script α}
    (hf : ∀ r status events, s.Lands (site.told events) follow r → r.status = some status →
      (f (r, status)).Tame (site.told events)) : (require s path follow >>= f).Tame site := by
  refine (tame_require h hp hamong).bind fun found t hrun => ?_
  rw [require, run_bind] at hrun
  rcases Action.eval_bind_cases hrun with ⟨e, -, he⟩ | ⟨r, mid, hresolve, hrun⟩
  · cases he
  obtain ⟨events, rfl, hl⟩ := lands_of_resolve h hp hamong hresolve
  cases hs : r.status with
  | none =>
    rw [hs] at hrun
    cases hrun
  | some status =>
    rw [hs] at hrun
    cases hrun
    exact hf r status events hl hs

end Script

end MountSpace
