import MountSpace.Proofs.Session.ReadBack
import MountSpace.Proofs.Session.TreeHistory
import MountSpace.Proofs.Time.Calendar

/-!
# Times that are set are the times reported

A table keeps times as dates in universal time.  An entry whose times are set is reported with just
the instants that were given, and with its former times where none were given; nothing else changes.
An instant before the year 1 or after the year 9999 has no date, and when one is given nothing
changes at all.

## Main definitions

* `Moment.Dated` — a moment with a date in universal time.
* `Row.timed`, `Table.timed`, `Status.timed` — what has the times that are given.

Main statement: `Session.timed_of_setTimes`.
-/

namespace MountSpace

open MountSpace.Path

/-! ## Moments -/

/-- The moment has a date in universal time, in the years 1 to 9999. -/
def Moment.Dated (m : Moment) : Prop := ∃ c : Civil, c.Valid ∧ Instant.ofCivil c = m.instant

theorem Moment.dated_iff {m : Moment} : m.Dated ↔ m.instant.InRange := Instant.inRange_iff.symm

instance (m : Moment) : Decidable m.Dated := decidable_of_iff _ Moment.dated_iff.symm

/-- The times that are given, if any, have dates. -/
def Moment.AllDated (accessed modified : Option Moment) : Prop :=
  (∀ m ∈ accessed, m.Dated) ∧ ∀ m ∈ modified, m.Dated

instance (accessed modified : Option Moment) : Decidable (Moment.AllDated accessed modified) :=
  inferInstanceAs (Decidable (_ ∧ _))

variable {accessed modified : Option Moment}

/-! ## Rows and tables -/

/-- The row with the times that are given. -/
def Row.timed (row : Row) (accessed modified : Option Moment) : Row :=
  { row with
    accessed := (accessed.map fun m => m.instant.toCivil).getD row.accessed
    modified := (modified.map fun m => m.instant.toCivil).getD row.modified }

/-- The report with the times that are given. -/
def Status.timed (st : Status) (accessed modified : Option Moment) : Status :=
  { st with
    accessed := (accessed.map Moment.instant).or st.accessed
    modified := (modified.map Moment.instant).or st.modified }

/-- The table with the times that are given in the row stored under a text. -/
def Table.timed (t : Table) (key : String) (accessed modified : Option Moment) : Table :=
  t.modify key (·.timed accessed modified)

/-- The site with the times that are given in a row of a table. -/
def Site.timed (site : Site) (T : TableName) (key : String) (accessed modified : Option Moment) :
    Site :=
  site.setTable T ((site.table T).timed key accessed modified)

/-- A date that is kept is read as the instant that it was made from. -/
theorem Moment.ofCivil_getD {time : Option Moment} (h : ∀ m ∈ time, m.Dated) (c : Civil) :
    some (Instant.ofCivil ((time.map fun m => m.instant.toCivil).getD c)) =
      (time.map Moment.instant).or (some (.ofCivil c)) := by
  cases time with
  | none => rfl
  | some m => exact congrArg some (Instant.ofCivil_toCivil (dated_iff.mp (h m rfl)).1)

theorem Row.status_timed (row : Row) (h : Moment.AllDated accessed modified) :
    (row.timed accessed modified).status = (·.timed accessed modified) <$> row.status := by
  have hsame : (row.timed accessed modified).destination = row.destination := rfl
  rw [Row.status_eq, Row.status_eq, hsame]
  unfold Row.timed
  dsimp only
  rw [Moment.ofCivil_getD h.1, Moment.ofCivil_getD h.2]
  rcases Path.read row.path with e | path
  · rfl
  · rcases row.destination with e | target <;> rfl

namespace Table

variable {t : Table} {path key : String} {st : Status} {row : Row}

theorem find_timed (t : Table) (key other : String) (accessed modified : Option Moment) :
    (t.timed key accessed modified).find other =
      (·.map fun row => if row.path == key then row.timed accessed modified else row) <$>
        t.find other := by
  obtain ⟨- | rows⟩ := t
  · rfl
  · refine congrArg Except.ok ?_
    rw [List.find?_map]
    have hpath : ((fun row : Row => row.path == other) ∘ fun row =>
        if row.path == key then row.timed accessed modified else row) =
          fun row => row.path == other := by
      funext row
      dsimp only [Function.comp]
      split <;> rfl
    rw [hpath]

theorem mapM_stored (time : Option Moment) : time.mapM stored =
    if ∀ m ∈ time, m.Dated then .ok (time.map fun m => m.instant.toCivil)
    else .error .timeOutOfRange := by
  cases time with
  | none => rw [if_pos (by simp)]; rfl
  | some m =>
    have hall : (∀ x ∈ some m, x.Dated) ↔ m.instant.InRange := by
      simp [Moment.dated_iff]
    change (stored m >>= fun c => pure (some c)) = _
    unfold stored
    by_cases hm : m.instant.InRange
    · rw [if_pos hm, if_pos (hall.mpr hm)]
      rfl
    · rw [if_neg hm, if_neg (mt hall.mp hm)]
      rfl

theorem row_of_reported (hkey : Table.key path = .ok key) (hst : t.status path = .ok (some st))
    (hroot : st ≠ rootStatus) :
    key ≠ "/" ∧ ∃ row, t.find key = .ok (some row) ∧ row.status = .ok st := by
  obtain ⟨key', hkey', ⟨-, heq⟩ | ⟨-, -, hnone⟩ | ⟨hne, row, st', hfind, hrow, heq⟩⟩ :=
    status_cases hst
  · exact absurd (Option.some.inj heq) hroot
  · cases hnone
  · cases hkey.symm.trans hkey'
    cases heq
    exact ⟨hne, row, hfind, hrow⟩

/-- Setting times gives the row its times, or fails for a time without a date. -/
theorem setTimes_of_row (hkey : Table.key path = .ok key) (hroot : key ≠ "/")
    (hfind : t.find key = .ok (some row)) (accessed modified : Option Moment) :
    t.setTimes path accessed modified = if Moment.AllDated accessed modified then
      .ok (t.timed key accessed modified) else .error .timeOutOfRange := by
  unfold setTimes
  rw [hkey]
  simp only [bind, Except.bind, hfind, if_neg hroot, mapM_stored]
  by_cases ha : ∀ m ∈ accessed, m.Dated
  · by_cases hm : ∀ m ∈ modified, m.Dated
    · rw [if_pos ha, if_pos hm, if_pos ⟨ha, hm⟩]
      rfl
    · rw [if_pos ha, if_neg hm, if_neg fun h : Moment.AllDated accessed modified => hm h.2]
  · rw [if_neg ha, if_neg fun h : Moment.AllDated accessed modified => ha h.1]

/-- One entry is reported with the times that are given, the others as before. -/
theorem status_timed (h : Moment.AllDated accessed modified) (hroot : key ≠ "/") {other : String}
    (hkey : Table.key path = .ok other) : (t.timed key accessed modified).status path =
      (·.map fun st => if other = key then st.timed accessed modified else st) <$>
        t.status path := by
  unfold Table.status
  rw [hkey]
  simp only [bind, Except.bind]
  by_cases htop : other = "/"
  · rw [if_pos htop, if_pos htop]
    simp [htop, hroot.symm, pure, Except.pure, Functor.map, Except.map]
  rw [if_neg htop, if_neg htop, find_timed]
  cases hfind : t.find other with
  | error e => rfl
  | ok row? =>
    cases row? with
    | none => rfl
    | some row =>
      obtain rfl := (find_eq_some hfind).2
      by_cases hat : row.path = key
      · simp only [Functor.map, Except.map, Option.map_some, hat, beq_self_eq_true, if_true]
        rw [Row.status_timed row h]
        rcases row.status with e | st <;> rfl
      · simp only [Functor.map, Except.map, Option.map_some, beq_eq_false_iff_ne.mpr hat, hat,
          Bool.false_eq_true, if_false]
        rcases row.status with e | st <;> rfl

end Table

/-! ## Mounts -/

namespace Mount

variable {m : Mount} {site : Site} {T : TableName} {path key : String} {row : Row}

theorem eval_setTimes (hT : m.table? = some T) (hkey : Table.key path = .ok key)
    (hroot : key ≠ "/") (hfind : (site.table T).find key = .ok (some row))
    (accessed modified : Option Moment) :
    (m.within fun c => c.setTimes path accessed modified).eval site =
      if Moment.AllDated accessed modified then
        (.ok (), site.timed T key accessed modified)
      else (.error .timeOutOfRange, site) := by
  obtain ⟨name, hs⟩ := storage_of_table? hT
  have hchange := m.connection.setTimes_onTable hs path accessed modified
  rw [eval_within, hchange, eval_changeTable hT hs,
    Table.setTimes_of_row hkey hroot hfind accessed modified]
  by_cases hdated : Moment.AllDated accessed modified
  · rw [if_pos hdated, if_pos hdated]
    rfl
  · rw [if_neg hdated, if_neg hdated]
    dsimp only
    split <;> rfl

theorem statusIn_timed_self (h : Moment.AllDated accessed modified) (hT : m.table? = some T)
    (hroot : key ≠ "/") (hkey : Table.key path = .ok key) {st : Status}
    (hst : m.statusIn site path = .ok (some st)) :
    m.statusIn (site.timed T key accessed modified) path =
      .ok (some (st.timed accessed modified)) := by
  rw [statusIn_table hT] at hst ⊢
  rw [Site.timed, Site.table_setTable, if_pos rfl, Table.status_timed h hroot hkey, hst]
  simp [Functor.map, Except.map]

/-- Every entry is still there when one of a table has been given times. -/
theorem exists_statusIn_timed (h : Moment.AllDated accessed modified) (hroot : key ≠ "/")
    {st : Status} (hst : m.statusIn site path = .ok (some st)) :
    ∃ st', m.statusIn (site.timed T key accessed modified) path = .ok (some st') ∧
      st'.kind = st.kind ∧ st'.target = st.target := by
  rcases m.storage_cases hst with ⟨host, hs⟩ | ⟨other, hother⟩
  · rw [statusIn_disk hs] at hst ⊢
    exact ⟨st, hst, rfl, rfl⟩
  · rw [statusIn_table hother] at hst ⊢
    rw [Site.timed, Site.table_setTable]
    by_cases heq : other = T
    · subst heq
      obtain ⟨found, hkey, -⟩ := bind_eq_ok.mp hst
      rw [if_pos rfl, Table.status_timed h hroot hkey, hst]
      refine ⟨_, rfl, ?_⟩
      split <;> exact ⟨rfl, rfl⟩
    · rw [if_neg heq]
      exact ⟨st, hst, rfl, rfl⟩

end Mount

/-! ## Requests -/

namespace Session

variable {s : Session} {site : Site} {arg : PathArg} {path : Path} {r : Resolution} {st : Status}
variable {T : TableName} {key : String}

/-- An entry that keeps its times is handed to its mount with those that are given. -/
theorem eval_setTimes (hq : s.qualified arg = .ok path) (hr : s.Resolves site path true r)
    (hst : r.status = some st) (hhonors : r.mount.capability.honorsTimes = true)
    (accessed modified : Option Moment) : (s.setTimes arg accessed modified).eval site =
      (r.mount.within fun c => c.setTimes r.path.localText accessed modified).eval
        (site.told (hopReports (s.trace site path true).hops)) := by
  have htrace : (s.trace site path true).outcome = .ok r := hr
  unfold setTimes
  rw [hq, Action.eval_bind, Action.eval_ofExcept]
  dsimp only
  rw [Action.eval_bind, eval_require, htrace]
  dsimp only
  rw [hst]
  dsimp only
  rw [if_pos hhonors]

/-- A path leads to an entry of a table with the times that it has been given. -/
theorem Resolves.of_timed (hr : s.Resolves site path true r) (hpath : path.Complete)
    (hst : r.status = some st) (hT : r.mount.table? = some T)
    (hkey : Table.key r.path.localText = .ok key) (hroot : key ≠ "/") (hk : st.kind ≠ .link)
    (hdated : Moment.AllDated accessed modified) :
    s.Resolves (site.timed T key accessed modified) path true
      ⟨r.path, r.mount, some (st.timed accessed modified), true⟩ := by
  have hend := hr.ending hpath.normal hpath.absolute
  obtain ⟨hparent, hl⟩ := hend.of_status hst
  have hways : (s.atlas site).KeepsWays (s.atlas (site.timed T key accessed modified)) :=
    ⟨rfl, fun m names st _ hst _ => m.exists_statusIn_timed hdated hroot hst⟩
  have hconfirmed := hways.confirmed (fun n hn => hend.ordinary n (List.dropLast_subset _ hn))
    (hend.reported hparent).2
  rw [hend.localText_eq] at hkey
  exact hr.of_keepsWays hpath hways hconfirmed
    (Mount.statusIn_timed_self hdated hT hroot hkey hl) hk

/-- **Times that are set are the times reported.**  When an entry of a table other than the root is
given times that have dates, its row gets these times and all else stays as it is; the path then
leads to a report of just these instants, where none was given of the former one.  When a time has
no date nothing happens. -/
theorem timed_of_setTimes (hs : s.standpoint.Proper) (harg : ∀ p, arg.read = .ok p → p.Normal)
    (hq : s.qualified arg = .ok path) (hr : s.Resolves site path true r)
    (hst : r.status = some st) (hroot : st ≠ Table.rootStatus) (hT : r.mount.table? = some T)
    (hhonors : r.mount.capability.honorsTimes = true) (accessed modified : Option Moment) :
    ∃ key events, Table.key r.path.localText = .ok key ∧
      ((s.status arg).eval site).1 = .ok { st with path := r.path } ∧
      (Moment.AllDated accessed modified →
        let after := (site.timed T key accessed modified).told events
        (s.setTimes arg accessed modified).eval site = (.ok (), after) ∧
          ((s.status arg).eval after).1 =
            .ok (Status.timed { st with path := r.path } accessed modified)) ∧
      (¬Moment.AllDated accessed modified →
        (s.setTimes arg accessed modified).eval site =
          (.error .timeOutOfRange, site.told events)) := by
  have hpath := complete_of_arg hs harg hq
  have hend := hr.ending hpath.normal hpath.absolute
  have hl : r.mount.statusIn site r.path.localText = .ok (some st) := by
    rw [hend.localText_eq]
    exact (hend.of_status hst).2
  obtain ⟨key, hkey⟩ : ∃ key, Table.key r.path.localText = .ok key := by
    rw [Mount.statusIn_table hT] at hl
    obtain ⟨key, hkey, -⟩ := bind_eq_ok.mp hl
    exact ⟨key, hkey⟩
  obtain ⟨hne, row, hfind, hrow⟩ := Table.row_of_reported hkey
    ((Mount.statusIn_table hT site _).symm.trans hl) hroot
  have hne' : r.path.segments ≠ [] := by
    intro hnil
    rw [hend.localText_eq] at hkey
    exact hne (by rw [Table.key_rootText hend.ordinary hkey, hnil, settle_nil, rootText_nil])
  have hk : st.kind ≠ .link := by
    rcases hend.arrives with ⟨-, -, -, hplain⟩ | ⟨-, hnone, -⟩
    · exact hplain rfl hne' st hst
    · cases hnone.symm.trans hst
  have hset := eval_setTimes hq hr hst hhonors accessed modified
  set events := hopReports (s.trace site path true).hops
  have hfind' : ((site.told events).table T).find key = .ok (some row) := hfind
  rw [Mount.eval_setTimes hT hkey hne hfind' accessed modified] at hset
  refine ⟨key, events, hkey, eval_status_of_resolves hq hr hst hk, fun hdated => ?_,
    fun hdated => ?_⟩
  · rw [if_pos hdated] at hset
    have hr' : s.Resolves ((site.timed T key accessed modified).told events) path true
        ⟨r.path, r.mount, some (st.timed accessed modified), true⟩ :=
      hr.of_timed hpath hst hT hkey hne hk hdated
    exact ⟨hset, eval_status_of_resolves hq hr' rfl hk⟩
  · rwa [if_neg hdated] at hset

/-- A file in a table, behind a link. -/
def tableWithLink : Site :=
  let s := Scene.onTable.session 0
  let work : Work Unit := do
    let _ ← s.createFile (.text "/f") false false
    s.makeLink (.text "f") (.text "/l") false
  (work.eval Scene.onTable.site).2

/-- A time on the first of March, by a clock that is an hour and half a minute ahead, is one on the
leap day; the time of the last change is not given. -/
theorem timed_of_setTimes_leap :
    let s := Scene.onTable.session 0
    let arg : PathArg := .text "/l"
    let path : Path := { location := ⟨some "lfs", some "nn"⟩, segments := ["l"] }
    let T : TableName := ⟨"db", "entries"⟩
    let given : Moment := ⟨{ year := 2024, month := 3, day := 1, minute := 30 }, some 3630⟩
    let leap : Civil := ⟨2024, 2, 29, 23, 29, 30, 0⟩
    s.standpoint.Proper ∧ (∀ p, arg.read = .ok p → p.Normal) ∧ s.qualified arg = .ok path ∧
      ∃ r st, s.Resolves tableWithLink path true r ∧ r.status = some st ∧
        st ≠ Table.rootStatus ∧ r.mount.table? = some T ∧
        r.mount.capability.honorsTimes = true ∧ Moment.AllDated (some given) none ∧
        ∃ events,
          let after := (tableWithLink.timed T "/f" (some given) none).told events
          (s.setTimes arg (some given) none).eval tableWithLink = (.ok (), after) ∧
          ((s.status arg).eval after).1 = .ok
            { st with
              path := { path with segments := ["f"] }, accessed := some (.ofCivil leap) } := by
  intro s arg path T given leap
  have hs : s.standpoint.Proper := Capability.rootPath_complete _
  have harg : ∀ p, arg.read = .ok p → p.Normal := PathArg.normal_of_text
  have hq : s.qualified arg = .ok path := by decide +kernel
  have hends : (s.trace tableWithLink path true).outcome.map (fun r =>
      (r.path, r.mount.table?, r.mount.capability.honorsTimes, r.status.map Status.kind)) =
        .ok ({ path with segments := ["f"] }, some T, true, some .file) := by decide +kernel
  obtain ⟨r, hr, hend⟩ := map_eq_ok.mp hends
  obtain ⟨hpath, hT, hhonors, hkind⟩ : _ ∧ _ ∧ _ ∧ _ := by simpa using hend
  obtain ⟨st, hst, hk⟩ := hkind
  have hroot : st ≠ Table.rootStatus := by
    rintro rfl
    cases hk
  have hdated : Moment.AllDated (some given) none := by decide
  obtain ⟨key, events, hkey, -, hset, -⟩ :=
    timed_of_setTimes hs harg hq hr hst hroot hT hhonors (some given) none
  obtain ⟨hset, hstatus⟩ := hset hdated
  have hkey' : Table.key r.path.localText = .ok "/f" := by
    rw [hpath]
    decide +kernel
  obtain rfl : key = "/f" := Except.ok.inj (hkey.symm.trans hkey')
  have hleap : given.instant = .ofCivil leap := by decide
  refine ⟨hs, harg, hq, r, st, hr, hst, hroot, hT, hhonors, hdated, events, hset, ?_⟩
  rw [hpath] at hstatus
  refine hstatus.trans ?_
  simp [Status.timed, hleap]

end Session

end MountSpace
