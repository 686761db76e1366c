import MountSpace.Proofs.Session.Growth
import MountSpace.Proofs.Store.Reach

/-!
# Directories and what stands in their place

Where something stands, a directory cannot be made: the request fails and changes nothing, and when
a directory may be there already it succeeds only where there is one.  A link stands for what it
leads to, so one that leads to nothing is no hindrance.

## Main definitions

* `Session.Stands` — something stands at a path, be it a link.
* `Session.Dangles` — a link stands there that leads to nothing.
* `Session.Occupied` — nothing comes of making a directory there.

Main statement: `Session.occupied_iff`.
-/

namespace MountSpace

/-! ## Where nothing stands, nothing is in the way -/

namespace HostTree

variable {t : HostTree} {dir : Place} {names : List String} {name : String} {follow : Bool}
variable {links : ℕ}

theorem advance_ne_exists : t.advance follow dir names ≠ .failed .exists := by
  fun_induction advance t follow dir names <;> simp_all

theorem locate_ne_exists : t.locate follow links dir names ≠ .error .exists := by
  fun_induction locate t follow links dir names with
  | case1 | case3 => rintro ⟨⟩
  | case2 links dir names cause hfailed =>
    rintro ⟨⟩
    exact advance_ne_exists hfailed
  | case4 dir names other text rest hlink links ih => exact ih

theorem placeOf_ne_exists : t.placeOf follow names ≠ .error .exists := by
  unfold placeOf
  split
  · nofun
  · exact locate_ne_exists

theorem holder_ne_exists : t.holder names ≠ .error .exists := by
  unfold holder
  split
  · nofun
  cases hp : t.placeOf true names.dropLast with
  | error cause =>
    rintro ⟨⟩
    exact placeOf_ne_exists hp
  | ok place =>
    simp only [bind, Except.bind]
    split <;> nofun

/-- A new entry is not refused as being there already where no entry is found. -/
theorem vacancy_ne_exists {cause : HostError} (hname : isDots name = false)
    (hs : t.stat false (names ++ [name]) = .error cause) :
    t.vacancy (names ++ [name]) ≠ .error .exists := by
  unfold vacancy
  cases hh : t.holder (names ++ [name]) with
  | error cause =>
    rintro ⟨⟩
    exact holder_ne_exists hh
  | ok found =>
  obtain ⟨dir, last⟩ := found
  obtain rfl : name = last := by simpa using (holder_eq_ok.mp hh).2.2.2
  change ite _ _ (ite _ _ (ite _ _ _)) ≠ _
  rw [if_neg (by simp [hname])]
  split
  · nofun
  rename_i hlong
  have hp := placeOf_of_holder (by simp) (by simpa using hlong) hname hh
  split
  · rename_i hfind
    obtain ⟨entry, hentry⟩ := Option.isSome_iff_exists.mp hfind
    cases hs.symm.trans (stat_eq_ok.mpr ⟨_, hp, hentry⟩)
  · nofun

end HostTree

/-- A disk that reports nothing at a path makes a directory there, or refuses for another reason
than that something is there. -/
theorem Disk.kind_of_makeDirectory {d : Disk} {names : List String} {now : Instant} {e : Error}
    (ho : ∀ n ∈ names, Ordinary n) (hs : d.status (Path.rootText names) = .ok none)
    (h : d.makeDirectory now (Path.rootText names) = .error e) : e.kind ≠ .alreadyExists := by
  obtain ⟨way, cause, hway, hstat, -⟩ := status_eq_none hs
  obtain ⟨p, hread, -, rfl⟩ := way_eq_ok.mp hway
  have hp : ∀ n ∈ p.segments, Ordinary n := by
    obtain rfl := Path.eq_of_read_rootText ho hread
    exact Path.settle_ordinary ho
  obtain ⟨front, last, hsplit⟩ :=
    (List.eq_nil_or_concat' (home :: p.segments)).resolve_left (List.cons_ne_nil _ _)
  have hlast : Ordinary last := by
    have hmem : last ∈ home :: p.segments := by simp [hsplit]
    rcases List.mem_cons.mp hmem with rfl | hmem
    · exact home_ordinary
    · exact hp last hmem
  have hvacancy : d.tree.vacancy (home :: p.segments) ≠ .error .exists := by
    rw [hsplit] at hstat ⊢
    exact HostTree.vacancy_ne_exists (HostTree.isDots_of_ordinary hlast) hstat
  unfold Disk.makeDirectory at h
  rw [hway] at h
  obtain ⟨cause', hcause, rfl⟩ := mapError_eq_error.mp (map_eq_error.mp h)
  change d.tree.create now _ .directory = .error cause' at hcause
  rcases bind_eq_error.mp hcause with hcause | ⟨place, -, hcause⟩
  · cases cause' with
    | «exists» => exact absurd hcause hvacancy
    | _ => nofun
  · cases hcause

/-- So does a table. -/
theorem Table.kind_of_makeDirectory {t : Table} {path : String} {now : Instant} {e : Error}
    (hs : t.status path = .ok none) (h : t.makeDirectory now path = .error e) :
    e.kind ≠ .alreadyExists := by
  obtain ⟨key, hkey, ⟨-, hroot⟩ | ⟨-, hfind, -⟩ | ⟨-, row, st, -, -, hst⟩⟩ :=
    status_cases hs
  · cases hroot
  swap
  · cases hst
  have hsplit : Table.split key = .error e → e.kind ≠ .alreadyExists := by
    intro h
    rcases bind_eq_error.mp h with h | ⟨p, -, h⟩
    · obtain ⟨cause, -, rfl⟩ := mapError_eq_error.mp h
      nofun
    · cases h
  have hall : t.all = .error e → e.kind ≠ .alreadyExists := by
    unfold all
    split <;> rintro ⟨⟩
    nofun
  have hinsert : t.insert now key .directory none none = .error e → e.kind ≠ .alreadyExists := by
    intro h
    unfold insert at h
    rw [hfind] at h
    change (split key >>= _) = _ at h
    rcases bind_eq_error.mp h with h | ⟨⟨parent, name⟩, -, h⟩
    · exact hsplit h
    · rcases bind_eq_error.mp h with h | ⟨rows, -, h⟩
      · exact hall h
      · cases h
  unfold makeDirectory at h
  rw [hkey] at h
  change (split key >>= _) = _ at h
  rcases bind_eq_error.mp h with h | ⟨⟨parent, name⟩, -, h⟩
  · exact hsplit h
  dsimp only at h
  split at h
  · rcases bind_eq_error.mp h with h | ⟨row?, -, h⟩
    · rcases bind_eq_error.mp h with h | ⟨rows, -, h⟩
      · exact hall h
      · cases h
    · split at h
      · exact hinsert h
      · cases h
        nofun
  · exact hinsert h

/-- A mount that reports nothing at a path makes a directory there, or refuses for another reason
than that something is there. -/
theorem Mount.kind_of_makeDirectory {m : Mount} {site after : Site} {names : List String}
    {e : Error} (ho : ∀ n ∈ names, Ordinary n)
    (hs : m.statusIn site (Path.rootText names) = .ok none)
    (h : (m.within fun c => c.makeDirectory (Path.rootText names)).eval site = (.error e, after)) :
    e.kind ≠ .alreadyExists := by
  rw [eval_within] at h
  rcases storage_cases hs with ⟨host, hd⟩ | ⟨T, hT⟩
  · rw [statusIn_disk hd] at hs
    rw [m.connection.makeDirectory_onDisk hd, Connection.eval_changeDisk] at h
    cases hmade : (site.disk host).makeDirectory site.now (Path.rootText names) with
    | ok d => rw [hmade] at h; cases h
    | error e =>
      rw [hmade] at h
      cases h
      exact Disk.kind_of_makeDirectory ho hs hmade
  · obtain ⟨name, ht⟩ := storage_of_table? hT
    rw [statusIn_table hT] at hs
    rw [m.connection.makeDirectory_onTable ht, eval_changeTable hT ht] at h
    cases hmade : (site.table T).makeDirectory site.now (Path.rootText names) with
    | ok t => rw [hmade] at h; cases h
    | error e =>
      rw [hmade] at h
      cases h
      exact Table.kind_of_makeDirectory hs hmade

/-! ## Making directories -/

namespace Session

variable {s : Session} {site after : Site} {arg : PathArg} {path : Path} {r : Resolution}

/-- Something stands at the path, be it a link. -/
def Stands (s : Session) (site : Site) (arg : PathArg) : Prop :=
  ∃ status after, (s.linkStatus arg).eval site = (.ok status, after)

/-- The path leads to an end, links followed. -/
def EndsIn (s : Session) (site : Site) (arg : PathArg) (r : Resolution) : Prop :=
  ∃ path, s.qualified arg = .ok path ∧ s.Resolves site path true r

/-- A link stands at the path and leads to nothing. -/
def Dangles (s : Session) (site : Site) (arg : PathArg) : Prop :=
  s.Stands site arg ∧ ∃ r, s.EndsIn site arg r ∧ r.status = none

instance : Decidable (s.Stands site arg) :=
  decidable_of_iff (((s.linkStatus arg).eval site).1.toOption.isSome = true) <| by
    unfold Stands
    rcases (s.linkStatus arg).eval site with ⟨e | status, after⟩ <;> simp [Except.toOption]

theorem endsIn_iff (hq : s.qualified arg = .ok path) :
    s.EndsIn site arg r ↔ s.Resolves site path true r := by
  constructor
  · rintro ⟨path', hq', hr⟩
    cases hq.symm.trans hq'
    exact hr
  · exact fun hr => ⟨path, hq, hr⟩

instance : Decidable (s.Dangles site arg) :=
  match hq : s.qualified arg with
  | .error e => .isFalse fun ⟨_, _, ⟨_, hq', _⟩, _⟩ => by cases hq.symm.trans hq'
  | .ok path => decidable_of_iff (s.Stands site arg ∧
      (s.trace site path true).outcome.toOption.any (·.status.isNone) = true) <| by
    simp only [Dangles, endsIn_iff hq, Resolves]
    cases (s.trace site path true).outcome <;> simp [Except.toOption]

/-- Nothing comes of making a directory at the path, but for reports of the links on its way. -/
structure Occupied (s : Session) (site : Site) (arg : PathArg) : Prop where
  /-- It fails as something is there already, or as the path leads nowhere. -/
  refused : ∃ e events, (s.makeDirectory arg false).eval site = (.error e, site.told events) ∧
    ((∃ r, s.EndsIn site arg r) → e.kind = .alreadyExists)
  /-- It succeeds where a directory may be, and is, there already. -/
  again : ∃ res events, (s.makeDirectory arg true).eval site = (res, site.told events) ∧
    (res = .ok () ↔ ∃ r status, s.EndsIn site arg r ∧ r.status = some status ∧
      status.kind = .directory)

theorem eval_makeDirectory_of_error {e : Error} (hq : s.qualified arg = .ok path)
    (he : (s.trace site path true).outcome = .error e) (createParent : Bool) :
    (s.makeDirectory arg createParent).eval site =
      (.error e, site.told (hopReports (s.trace site path true).hops)) := by
  unfold makeDirectory
  rw [hq, Action.eval_bind, Action.eval_ofExcept]
  dsimp only
  rw [Action.eval_bind, eval_resolve, he]

/-- Behind a link that leads to nothing, nothing is in the way of a directory. -/
theorem kind_of_makeDirectory (hs : s.standpoint.Proper)
    (harg : ∀ p, arg.read = .ok p → p.Normal) {e : Error} (hend : s.EndsIn site arg r)
    (hnone : r.status = none) (h : (s.makeDirectory arg false).eval site = (.error e, after)) :
    e.kind ≠ .alreadyExists := by
  obtain ⟨path, hq, hr⟩ := hend
  have hpath := complete_of_arg hs harg hq
  have hend := hr.ending hpath.normal hpath.absolute
  rw [eval_makeDirectory hq hr, hnone] at h
  dsimp only at h
  rcases Action.eval_bind_cases h with ⟨e, hp, he⟩ | ⟨⟨⟩, mid, hp, h⟩
  · cases he
    unfold prepareParent at hp
    split at hp
    · cases hp
    · cases hp
      nofun
  · rcases prepareParent_cases hp with ⟨rfl, hparent⟩ | ⟨-, hfalse, -⟩
    · have hmissing : r.mount.statusIn (site.told (hopReports (s.trace site path true).hops))
          (Path.rootText r.path.segments) = .ok none :=
        (hend.reported (hparent rfl)).1.trans (by rw [hnone])
      rw [hend.localText_eq] at h
      exact Mount.kind_of_makeDirectory hend.ordinary hmissing h
    · cases hfalse

theorem occupied_of_error {e : Error} (hq : s.qualified arg = .ok path)
    (he : (s.trace site path true).outcome = .error e) : s.Occupied site arg := by
  have hfails := eval_makeDirectory_of_error hq he
  have hno : ∀ r, ¬s.EndsIn site arg r := fun r hr => by
    cases he.symm.trans ((endsIn_iff hq).mp hr)
  refine ⟨⟨e, _, hfails false, ?_⟩, ⟨_, _, hfails true, nofun, ?_⟩⟩
  · rintro ⟨r, hr⟩
    exact absurd hr (hno r)
  · rintro ⟨r, st, hr, -⟩
    exact absurd hr (hno r)

theorem occupied_of_status {st : Status} (hq : s.qualified arg = .ok path)
    (hr : s.Resolves site path true r) (hst : r.status = some st) : s.Occupied site arg := by
  have hmade := eval_makeDirectory hq hr
  rw [hst] at hmade
  refine ⟨⟨_, _, hmade false, fun _ => rfl⟩, ?_⟩
  by_cases hk : st.kind = .directory
  · refine ⟨.ok (), hopReports (s.trace site path true).hops, ?_, ?_⟩
    · rw [hmade true]
      simp [hk]
    · exact ⟨fun _ => ⟨r, st, ⟨path, hq, hr⟩, hst, hk⟩, fun _ => rfl⟩
  · refine ⟨.error (.entryExists path.text), hopReports (s.trace site path true).hops, ?_,
      nofun, ?_⟩
    · rw [hmade true]
      simp [hk]
    · rintro ⟨r', st', hend, hst', hk'⟩
      cases hr.symm.trans ((endsIn_iff hq).mp hend)
      cases hst.symm.trans hst'
      exact absurd hk' hk

/-- **What stands at a path is in the way of a directory**, whether it is a directory, a file, or a
link to either, unless it is a link that leads to nothing. -/
theorem occupied_iff (hs : s.standpoint.Proper) (harg : ∀ p, arg.read = .ok p → p.Normal)
    (hstands : s.Stands site arg) : s.Occupied site arg ↔ ¬s.Dangles site arg := by
  constructor
  · rintro ⟨⟨e, events, h, hkind⟩, -⟩ ⟨-, r, hend, hnone⟩
    exact kind_of_makeDirectory hs harg hend hnone h (hkind ⟨r, hend⟩)
  intro hdangles
  obtain ⟨path, hq⟩ : ∃ path, s.qualified arg = .ok path := by
    obtain ⟨status, after, h⟩ := hstands
    rcases Action.eval_ofExcept_cases h with ⟨e, -, he, -⟩ | ⟨path, hq, -⟩
    · cases he
    · exact ⟨path, hq⟩
  cases htrace : (s.trace site path true).outcome with
  | error e => exact occupied_of_error hq htrace
  | ok r =>
    cases hst : r.status with
    | none => exact absurd ⟨hstands, r, ⟨path, hq, htrace⟩, hst⟩ hdangles
    | some st => exact occupied_of_status hq htrace hst

/-- A link to a directory. -/
theorem occupied_iff_behind_link :
    let s := alone (.ofHost "h")
    let arg : PathArg := .text "/l"
    s.standpoint.Proper ∧ (∀ p, arg.read = .ok p → p.Normal) ∧ s.Stands hostWithLink arg ∧
      ¬s.Dangles hostWithLink arg ∧ s.Occupied hostWithLink arg := by
  intro s arg
  have hs : s.standpoint.Proper := Capability.rootPath_complete _
  have harg : ∀ p, arg.read = .ok p → p.Normal := PathArg.normal_of_text
  have hstands : s.Stands hostWithLink arg := by decide +kernel
  have hdangles : ¬s.Dangles hostWithLink arg := by decide +kernel
  exact ⟨hs, harg, hstands, hdangles, (occupied_iff hs harg hstands).mpr hdangles⟩

/-- The link at `/l` leads to `/x`, where there is nothing. -/
def hostWithStrayLink : Site :=
  (((alone (.ofHost "h")).makeLink (.text "/x") (.text "/l") false).eval (.emptyHost "h")).2

/-- A link that leads to nothing is no hindrance: the directory is made where it leads. -/
theorem not_occupied_stray :
    let s := alone (.ofHost "h")
    let arg : PathArg := .text "/l"
    let site := hostWithStrayLink
    let after := ((s.makeDirectory arg false).eval site).2
    s.Stands site arg ∧ ((s.makeDirectory arg false).eval site).1 = .ok () ∧
      (site.disk "h").tree.node? [Disk.home, "x"] = none ∧
      (after.disk "h").tree.node? [Disk.home, "x"] = some .directory ∧ ¬s.Occupied site arg := by
  intro s arg site after
  have hmade : ((s.makeDirectory arg false).eval site).1 = .ok () := by decide +kernel
  refine ⟨by decide +kernel, hmade, by decide +kernel, by decide +kernel, fun hoccupied => ?_⟩
  obtain ⟨e, events, hrefused, -⟩ := hoccupied.refused
  rw [hrefused] at hmade
  cases hmade

end Session

end MountSpace
