import MountSpace.Proofs.Session.Tables
import MountSpace.Proofs.Store.Making

/-!
# What requests do to a tree

A request on a table that is a tree leaves a tree, unless it puts an entry where no directory holds
it.  That takes a path with a name that ends in a blank, which is walked under one spelling and
stored under another, or a move below a directory that differs from the moved one in the case of
letters only, which goes along with it.

## Main definitions

* `Session.Stores` — where a request is to put an entry.
* `Session.Folds` — a move below what goes along with it.

Main statement: `Session.sound_after`.
-/

namespace MountSpace

open MountSpace.Path

/-! ## What resolving says of a table -/

namespace Table

variable {t : Table} {names : List String}

theorem find_of_status (hp : Plain names) (hne : names ≠ []) {found : Option Status}
    (h : t.status (rootText names) = .ok found) :
    ∃ row?, t.find (rootText names) = .ok row? ∧
      (row? = none ∧ found = none ∨
        ∃ row status, row? = some row ∧ found = some status ∧ status.kind = row.kind) := by
  obtain ⟨key, hkey, hcases⟩ := status_cases h
  obtain rfl : key = rootText names := by
    rw [key_rootText hp.ordinary hkey, hp.settle_eq]
  rcases hcases with ⟨hroot, -⟩ | ⟨-, hfind, rfl⟩ | ⟨-, row, status, hfind, hstatus, rfl⟩
  · exact absurd hroot (rootText_ne hp.ordinary hne)
  · exact ⟨none, hfind, .inl ⟨rfl, rfl⟩⟩
  · exact ⟨some row, hfind, .inr ⟨row, status, rfl, rfl, Row.kind_of_status hstatus⟩⟩

theorem row_of_status (hp : Plain names) (hne : names ≠ []) {status : Status}
    (h : t.status (rootText names) = .ok (some status)) :
    ∃ row ∈ t.rows, row.path = rootText names ∧ row.kind = status.kind := by
  obtain ⟨row?, hfind, ⟨-, hf⟩ | ⟨row, status', rfl, hs, hk⟩⟩ := find_of_status hp hne h
  · cases hf
  · cases hs
    exact ⟨row, (find_eq_some hfind).1, (find_eq_some hfind).2, hk.symm⟩

theorem no_row_of_status (hp : Plain names) (hne : names ≠ [])
    (h : t.status (rootText names) = .ok none) : ∀ row ∈ t.rows, row.path ≠ rootText names := by
  obtain ⟨row?, hfind, ⟨rfl, -⟩ | ⟨row, status', -, hs, -⟩⟩ := find_of_status hp hne h
  · exact find_eq_none hfind
  · cases hs

theorem children_of_list_nil (hn : ∀ n ∈ names, Ordinary n) (hs : settle names = [])
    (h : t.list (rootText names) = .ok []) : ∀ row ∈ t.rows, row.parent ≠ "/" := by
  unfold list at h
  obtain ⟨key, hkey, h⟩ := bind_eq_ok.mp h
  obtain rfl : key = "/" := by
    rw [key_rootText hn hkey, hs, rootText_nil]
  obtain ⟨children, hc, h⟩ := bind_eq_ok.mp h
  cases children with
  | nil => exact children_eq_nil hc
  | cons child rest => cases forall₂_of_mapM h

end Table

namespace Session

variable {s : Session} {site after : Site} {follow : Bool} {r : Resolution} {T : TableName}
variable {m : Mount} {names : List String}

theorem lstat_table (hT : m.table? = some T) (s : Session) (site : Site) (names : List String) :
    (s.atlas site).lstat m names = (site.table T).status (rootText names) :=
  Mount.statusIn_table hT site _

theorem held_of_isDirectory (hT : m.table? = some T) (hp : Table.Plain names)
    (h : (s.atlas site).IsDirectory m names) : (site.table T).Held (rootText names) := by
  by_cases hne : names = []
  · subst hne
    exact Table.held_root _
  obtain ⟨status, hs, hk⟩ := h
  rw [lstat_table hT] at hs
  obtain ⟨row, hrow, hpath, hrk⟩ := Table.row_of_status hp hne hs
  exact .inr ⟨row, hrow, hpath, hrk.trans hk⟩

theorem held_of_confirmed (hT : m.table? = some T) (hp : Table.Plain names)
    (h : (s.atlas site).Confirmed m names) {front : List String} (hf : front <+: names) :
    (site.table T).Held (rootText front) := by
  by_cases hne : front = []
  · subst hne
    exact Table.held_root _
  · exact held_of_isDirectory hT (hp.of_prefix hf) (h front hf hne)

/-- Below a parent that is there, directories lead down to the end of a path. -/
theorem Ending.held (h : s.Ending site follow r) (hT : r.mount.table? = some T)
    (hp : Table.Plain r.path.segments) (hparent : r.parentExists = true) {front : List String}
    (hf : front <+: r.path.segments) (hne : front ≠ r.path.segments) :
    (site.table T).Held (rootText front) :=
  held_of_confirmed hT (hp.of_prefix (List.dropLast_prefix _)) (h.reported hparent).2
    (OnTheWay.prefix_dropLast ⟨hf, hne⟩)

theorem Ending.held_dropLast (h : s.Ending site follow r) (hT : r.mount.table? = some T)
    (hp : Table.Plain r.path.segments) (hparent : r.parentExists = true) :
    (site.table T).Held (rootText r.path.segments.dropLast) := by
  by_cases hnil : r.path.segments = []
  · rw [hnil]
    exact Table.held_root _
  · refine h.held hT hp hparent (List.dropLast_prefix _) fun heq => ?_
    have hlen := congrArg List.length heq
    have hpos := List.length_pos_of_ne_nil hnil
    rw [List.length_dropLast] at hlen
    omega

/-- Below a parent that is missing, nothing stands in the way of making it. -/
theorem Ending.clear (h : s.Ending site follow r) (hT : r.mount.table? = some T)
    (hsound : (site.table T).Sound) (hp : Table.Plain r.path.segments)
    (hparent : r.parentExists = false) : (site.table T).Clear r.path.segments.dropLast := by
  intro front hf hne row hrow hpath
  have hplain : Table.Plain r.path.segments.dropLast := hp.of_prefix (List.dropLast_prefix _)
  have hfront := hplain.of_prefix hf
  rcases h.arrives with ⟨htrue, -⟩ | ⟨-, -, init, name, hway, hc, hmissing⟩
  · rw [htrue] at hparent
    cases hparent
  have hway' := hway.prefix_dropLast
  have hgap := Table.no_row_of_status (hplain.of_prefix hway') (by simp)
    (lstat_table hT s site _ ▸ hmissing)
  rcases List.prefix_or_prefix_of_prefix hf hway' with hle | hle
  · rcases List.prefix_concat_iff.mp hle with rfl | hle
    · exact absurd hpath (hgap row hrow)
    · -- The entry above the gap is the directory that the walk went through.
      rcases held_of_confirmed hT (hfront.of_prefix (List.prefix_refl _))
        (hc.mono hle) (List.prefix_refl _) with hroot | ⟨dir, hdir, hdpath, hk⟩
      · exact absurd hroot (rootText_ne hfront.ordinary hne)
      · rwa [Table.eq_of_path_eq hsound.coherent hrow hdir (hpath.trans hdpath.symm)]
  · by_cases hsame : init ++ [name] = front
    · rw [← hsame] at hpath
      exact absurd hpath (hgap row hrow)
    · obtain ⟨dir, hdir, hdpath, -⟩ :=
        hsound.exists_directory hfront hrow hpath hle (by simp) hsame
      exact absurd hdpath (hgap dir hdir)

/-! ## Seeing to a directory -/

theorem sound_connection_makeDirectory {res : Except Error Unit}
    (hn : ∀ n ∈ names, Ordinary n) (hs : (site.table T).Sound)
    (h : (m.connection.makeDirectory (rootText names)).eval site = (res, after)) :
    (after.table T).Sound := by
  rcases Mount.table_connection_makeDirectory h T with hsame | ⟨-, hop⟩
  · rwa [hsame]
  · exact hs.makeDirectory hn hop

theorem Ending.sound_prepareParent (h : s.Ending site follow r) (hs : (site.table T).Sound)
    {asked : Path} {createParent : Bool} {events : List Event} {res : Except Error Unit}
    (hp : (prepareParent r asked createParent).eval (site.told events) = (res, after)) :
    (after.table T).Sound := by
  have hstart : ((site.told events).table T).Sound := hs
  exact h.prepareParent_keeps (P := fun site => (site.table T).Sound)
    (fun hf _ hs hm => sound_connection_makeDirectory
      (fun n hn => h.ordinary n (List.dropLast_subset _ (hf.subset hn))) hs hm)
    (fun hb _ => hb) hstart hp

/-- Where nothing stands in the way, making directories leaves directories all the way. -/
theorem confirmed_makeDirectories (hT : m.table? = some T) {done : List String}
    (hp : Table.Plain (done ++ names)) (hc : (site.table T).Clear (done ++ names))
    (hd : (s.atlas site).Confirmed m done)
    (h : (makeDirectories m.connection (m.place done) names).eval site = (.ok (), after)) :
    (s.atlas after).Confirmed m (done ++ names) := by
  induction names generalizing done site with
  | nil =>
    cases h
    simpa using hd
  | cons name rest ih =>
    unfold makeDirectories at h
    have hsplit : done ++ name :: rest = (done ++ [name]) ++ rest := by simp
    rw [hsplit] at hp hc ⊢
    have hhere : Table.Plain (done ++ [name]) := hp.of_prefix (List.prefix_append _ _)
    rw [m.place_child (fun n hn => hhere.ordinary n (by simp [hn]))
      (fun n hn => hhere.ordinary n (by simp [List.mem_singleton.mp hn]))] at h
    obtain ⟨found, u, hq, h⟩ := Action.eval_bind_eq_ok h
    rw [Connection.eval_status] at hq
    obtain ⟨hfound, rfl⟩ := Prod.mk.inj hq
    clear hq
    have hstatus : (site.table T).status (rootText (done ++ [name])) = .ok found :=
      (Mount.statusIn_table hT site _).symm.trans hfound
    split at h
    · obtain ⟨⟨⟩, mid, hm, h⟩ := Action.eval_bind_eq_ok h
      have hmade := Mount.makeDirectory_table hT hm
      obtain ⟨key, -, -, -, -, -, hinsert⟩ := Table.insert_of_makeDirectory hmade
      have hgrows := Table.grows_of_insert hinsert
      obtain ⟨st, hst, hk⟩ := Table.directory_of_makeDirectory hhere (by simp) hmade
      refine ih hp (hc.makeDirectory hmade) (Atlas.Confirmed.concat (fun front hf hne => ?_)
        ⟨st, (lstat_table hT s mid _).trans hst, hk⟩) h
      obtain ⟨old, hold, hdir⟩ := hd front hf hne
      rw [lstat_table hT] at hold
      exact ⟨old, (lstat_table hT s mid front).trans (Table.status_of_grows hgrows hold), hdir⟩
    · rename_i hsome
      refine ih hp hc (hd.concat ?_) h
      -- What is there already is a directory.
      obtain ⟨row?, hfind, ⟨-, rfl⟩ | ⟨row, status, rfl, rfl, hk⟩⟩ :=
        Table.find_of_status hhere (by simp) hstatus
      · exact absurd rfl hsome
      · obtain ⟨hrow, hpath⟩ := Table.find_eq_some hfind
        exact ⟨status, (lstat_table hT s site _).trans hstatus,
          hk.trans (hc _ (List.prefix_append _ _) (by simp) row hrow hpath)⟩

/-- A new entry with a plain way is seen to have directories all the way. -/
theorem Ending.confirmed_prepareParent (h : s.Ending site follow r) (hT : r.mount.table? = some T)
    (hs : (site.table T).Sound) (hp : Table.Plain r.path.segments) {asked : Path}
    {createParent : Bool} {events : List Event}
    (hprep : (prepareParent r asked createParent).eval (site.told events) = (.ok (), after)) :
    (s.atlas after).Confirmed r.mount r.path.segments.dropLast := by
  rcases prepareParent_cases hprep with ⟨rfl, hparent⟩ | ⟨hparent, -, hmake⟩
  · exact (h.reported (hparent rfl)).2
  · rw [h.eval_makeParents, Mount.eval_within] at hmake
    rcases hm : (makeDirectories r.mount.connection (r.mount.place [])
      r.path.segments.dropLast).eval (site.told events) with ⟨e | u, mid⟩ <;> rw [hm] at hmake
    · cases hmake
    · cases hmake
      have hplain : Table.Plain ([] ++ r.path.segments.dropLast) :=
        hp.of_prefix (List.dropLast_prefix _)
      have hclear : ((site.told events).table T).Clear ([] ++ r.path.segments.dropLast) :=
        h.clear hT hs hp hparent
      exact confirmed_makeDirectories hT hplain hclear (Atlas.confirmed_nil _ _) hm

/-- A new entry with a plain way is seen to have a directory. -/
theorem Ending.held_prepareParent (h : s.Ending site follow r) (hT : r.mount.table? = some T)
    (hs : (site.table T).Sound) (hp : Table.Plain r.path.segments) {asked : Path}
    {createParent : Bool} {events : List Event}
    (hprep : (prepareParent r asked createParent).eval (site.told events) = (.ok (), after)) :
    (after.table T).Held (rootText r.path.segments.dropLast) :=
  held_of_confirmed hT (hp.of_prefix (List.dropLast_prefix _))
    (h.confirmed_prepareParent hT hs hp hprep) List.prefix_rfl

/-! ## Requests that put an entry somewhere -/

/-- Where a request is to put an entry. -/
inductive Stores (s : Session) (site : Site) : Request → Resolution → Prop
  | createFile {raw : String} {overwrite createParent : Bool} {path : Path} {r : Resolution} :
      s.qualified (.text raw) = .ok path → s.Resolves site path true r →
      Stores s site (.createFile raw overwrite createParent) r
  | makeLink {target raw : String} {createParent : Bool} {path : Path} {r : Resolution} :
      s.qualified (.text raw) = .ok path → s.Resolves site path false r →
      Stores s site (.makeLink target raw createParent) r
  | move {src raw : String} {overwrite : Bool} {path : Path} {r : Resolution} :
      s.qualified (.text raw) = .ok path → s.Resolves site path false r →
      Stores s site (.move src raw overwrite) r

/-- A request to move an entry below one that goes along with it. -/
def Folds (s : Session) (site : Site) : Request → Prop
  | .move src dst _ => ∃ srcPath dstPath source dest S D,
      s.qualified (.text src) = .ok srcPath ∧ s.Resolves site srcPath false source ∧
      s.qualified (.text dst) = .ok dstPath ∧ s.Resolves site dstPath false dest ∧
      Table.key source.path.localText = .ok S ∧ Table.key dest.path.localText = .ok D ∧
      Table.isUnder S D = true
  | _ => False

variable {res : Except Error Unit} {raw : String} {q : Request}

/-- Nothing is astray where the request puts its entry, if that takes a name ending in a blank or
is below what goes along. -/
def Spares (s : Session) (site : Site) (q : Request) (T : TableName) (after : Site) : Prop :=
  ∀ r key, s.Stores site q r → r.mount.table? = some T → Table.key r.path.localText = .ok key →
    (∃ n ∈ r.path.segments, EndsBlank n) ∨ s.Folds site q → ¬(after.table T).Strays key

theorem Ending.exists_endsBlank (h : s.Ending site follow r)
    (hp : ¬Table.Plain r.path.segments) : ∃ n ∈ r.path.segments, EndsBlank n := by
  by_contra hno
  exact hp fun n hn => ⟨h.ordinary n hn, fun hb => hno ⟨n, hn, hb⟩⟩

theorem Ending.sound_write (h : s.Ending site follow r) (hstores : s.Stores site q r)
    (hin : s.Spares site q T after) {mid : Site} {data : Bytes} {overwrite : Bool}
    (hs : (mid.table T).Sound)
    (hheld : r.mount.table? = some T → Table.Plain r.path.segments →
      (mid.table T).Held (rootText r.path.segments.dropLast))
    (hw : (r.mount.within fun c => c.write r.path.localText data overwrite).eval mid =
      (res, after)) : (after.table T).Sound := by
  rcases Mount.table_write hw T with hsame | ⟨hT, hop⟩
  · rwa [hsame]
  by_cases hp : Table.Plain r.path.segments
  · rw [h.localText_eq] at hop
    exact hs.write_held hp (hheld hT hp) hop
  · have hblank := h.exists_endsBlank hp
    have hnot := fun key hkey => hin r key hstores hT hkey (.inl hblank)
    rw [h.localText_eq] at hop hnot
    exact hs.write h.ordinary hop hnot

theorem Ending.sound_makeLink (h : s.Ending site follow r) (hstores : s.Stores site q r)
    (hin : s.Spares site q T after) {mid : Site} {text : String} (hs : (mid.table T).Sound)
    (hheld : r.mount.table? = some T → Table.Plain r.path.segments →
      (mid.table T).Held (rootText r.path.segments.dropLast))
    (hl : (r.mount.within fun c => c.makeLink r.path.localText text).eval mid = (res, after)) :
    (after.table T).Sound := by
  rcases Mount.table_makeLink hl T with hsame | ⟨hT, hop⟩
  · rwa [hsame]
  by_cases hp : Table.Plain r.path.segments
  · rw [h.localText_eq] at hop
    exact hs.makeLink_held hp (hheld hT hp) hop
  · have hblank := h.exists_endsBlank hp
    have hnot := fun key hkey => hin r key hstores hT hkey (.inl hblank)
    rw [h.localText_eq] at hop hnot
    exact hs.makeLink h.ordinary hop hnot

theorem sound_after_createFile (hs : s.standpoint.Proper) (hsound : (site.table T).Sound)
    {overwrite createParent : Bool} {res : Except Error (OutputStream × Sink)}
    (hin : s.Spares site (.createFile raw overwrite createParent) T after)
    (h : (s.createFile (.text raw) overwrite createParent).eval site = (res, after)) :
    (after.table T).Sound := by
  rcases createFile_cases h with ⟨e, events, -, rfl⟩ | ⟨path, r, events, ready, mid, hpath, hr,
    hready, hlast⟩
  · exact hsound
  have hcomplete := complete_of_qualified hs hpath
  have hending := hr.ending hcomplete.normal hcomplete.absolute
  have hmid : (mid.table T).Sound := by
    rcases hready with ⟨-, hp⟩ | ⟨-, -, -, rfl⟩
    · exact hending.sound_prepareParent hsound hp
    · exact hsound
  rcases hlast with ⟨e, -, -, rfl⟩ | ⟨rfl, done, hw, -⟩
  · exact hmid
  refine hending.sound_write (.createFile hpath hr) hin hmid (fun hT hplain => ?_) hw
  rcases hready with ⟨-, hp⟩ | ⟨⟨status, hstatus, -⟩, -, -, rfl⟩
  · exact hending.held_prepareParent hT hsound hplain hp
  · exact hending.held_dropLast hT hplain (hending.of_status hstatus).1

theorem sound_after_makeLink (hs : s.standpoint.Proper) (hsound : (site.table T).Sound)
    {target : String} {createParent : Bool}
    (hin : s.Spares site (.makeLink target raw createParent) T after)
    (h : (s.makeLink (.text target) (.text raw) createParent).eval site = (res, after)) :
    (after.table T).Sound := by
  rcases makeLink_cases h with ⟨e, events, -, rfl⟩ | ⟨path, r, events, ready, mid, hpath, hr, -, hp,
    hlast⟩
  · exact hsound
  have hcomplete := complete_of_qualified hs hpath
  have hending := hr.ending hcomplete.normal hcomplete.absolute
  have hmid : (mid.table T).Sound := hending.sound_prepareParent hsound hp
  rcases hlast with ⟨e, -, -, rfl⟩ | ⟨rfl, t, done, made, more, -, hl, -, rfl⟩
  · exact hmid
  have hmade : (made.table T).Sound := hending.sound_makeLink (.makeLink hpath hr) hin hmid
    (fun hT hplain => hending.held_prepareParent hT hsound hplain hp) hl
  exact hmade

theorem sound_after_makeDirectory (hs : s.standpoint.Proper) (hsound : (site.table T).Sound)
    {createParent : Bool}
    (h : (s.makeDirectory (.text raw) createParent).eval site = (res, after)) :
    (after.table T).Sound := by
  rcases makeDirectory_cases h with ⟨events, rfl, -⟩ | ⟨path, r, events, ready, mid, hpath, hr, -,
    hp, hlast⟩
  · exact hsound
  have hcomplete := complete_of_qualified hs hpath
  have hending := hr.ending hcomplete.normal hcomplete.absolute
  have hmid : (mid.table T).Sound := hending.sound_prepareParent hsound hp
  rcases hlast with ⟨e, -, -, rfl⟩ | ⟨rfl, hm⟩
  · exact hmid
  rcases Mount.table_makeDirectory hm T with hsame | ⟨-, hop⟩
  · rwa [hsame]
  · rw [hending.localText_eq] at hop
    exact hmid.makeDirectory hending.ordinary hop

theorem sound_after_delete (hsound : (site.table T).Sound) {recursive : Bool}
    {res : Except Error Bool}
    (h : (s.delete (.text raw) recursive).eval site = (res, after)) : (after.table T).Sound := by
  rcases delete_cases h with ⟨events, rfl⟩ | ⟨path, r, status, events, -, -, -, -, hd⟩
  · exact hsound
  rcases Mount.table_delete hd T with hsame | ⟨-, found, hop⟩
  · rw [hsame]
    exact hsound
  · exact Table.Sound.delete hsound hop

theorem sound_after_setTimes (hsound : (site.table T).Sound) {accessed modified : Option Moment}
    (h : (s.setTimes (.text raw) accessed modified).eval site = (res, after)) :
    (after.table T).Sound := by
  rcases setTimes_cases h with ⟨events, rfl⟩ | ⟨path, r, events, -, -, hset⟩
  · exact hsound
  rcases Mount.table_setTimes hset T with hsame | ⟨-, hop⟩
  · rw [hsame]
    exact hsound
  · exact Table.Sound.sameShape hsound (Table.shape_of_setTimes hop)

/-! ## Moving -/

/-- A directory may be replaced when it lists nothing. -/
theorem list_of_checkReplacement {src dst : Path} {moved : Kind} {old : Status}
    {overwrite : Bool} (hT : r.mount.table? = some T) (hk : old.kind = .directory)
    (h : (checkReplacement src dst moved r old overwrite).eval site = (.ok (), after)) :
    (site.table T).list r.path.localText = .ok [] := by
  unfold checkReplacement at h
  obtain ⟨-, h⟩ := Action.eval_check_eq_ok h
  rw [if_pos hk] at h
  obtain ⟨-, h⟩ := Action.eval_check_eq_ok h
  obtain ⟨any, u, hany, h⟩ := Action.eval_bind_eq_ok h
  cases any with
  | true => cases h
  | false =>
    rw [hasChildren, Mount.eval_within, Action.eval_bind, Mount.list_table hT] at hany
    cases hlist : (site.table T).list r.path.localText with
    | error e => rw [hlist] at hany; cases hany
    | ok found =>
      rw [hlist] at hany
      cases found with
      | nil => rfl
      | cons entry rest => cases hany

/-- The root is replaced by nothing while it lists something. -/
theorem Ending.parent_ne_of_settle_nil (h : s.Ending site false r) (hT : r.mount.table? = some T)
    {src dst : Path} {moved : Kind} {overwrite : Bool} {events : List Event}
    (hold : r.status = none ∧ r.parentExists = true ∨ ∃ old told, r.status = some old ∧
      (checkReplacement src dst moved r old overwrite).eval (site.told told) =
        (.ok (), site.told events))
    (hnil : settle r.path.segments = []) : ∀ row ∈ (site.table T).rows, row.parent ≠ "/" := by
  have hroot : ∀ {found}, (s.atlas site).lstat r.mount r.path.segments = .ok found →
      found = some Table.rootStatus := fun hl =>
    Table.status_of_settle_nil h.ordinary hnil (lstat_table hT s site _ ▸ hl)
  rcases hold with ⟨hnone, hparent⟩ | ⟨old, told, hold, hcheck⟩
  · cases hnone.symm.trans (hroot (h.reported hparent).1)
  · have hk : old.kind = .directory := by
      cases hroot (h.of_status hold).2
      rfl
    have hlist := list_of_checkReplacement hT hk hcheck
    rw [h.localText_eq] at hlist
    exact Table.children_of_list_nil h.ordinary hnil hlist

theorem sound_after_move (hs : s.standpoint.Proper) (hsound : (site.table T).Sound)
    {src dst : String} {overwrite : Bool} (hin : s.Spares site (.move src dst overwrite) T after)
    (h : (s.move (.text src) (.text dst) overwrite).eval site = (res, after)) :
    (after.table T).Sound := by
  rcases move_cases h with ⟨events, rfl, -⟩ | ⟨srcPath, dstPath, source, dest, status, events,
    hsrc, hdst, hsource, hdest, -, hlocation, -, -, -, hold, hmove⟩
  · exact hsound
  have hsrcComplete := complete_of_qualified hs hsrc
  have hdstComplete := complete_of_qualified hs hdst
  have hfrom := hsource.ending hsrcComplete.normal hsrcComplete.absolute
  have hto := hdest.ending hdstComplete.normal hdstComplete.absolute
  have hmount : source.mount = dest.mount := hfrom.mount_eq hto hlocation
  rcases Mount.table_move hmove T with hsame | ⟨hT, hop⟩
  · rwa [hsame]
  rw [hmount] at hT
  rw [hfrom.localText_eq, hto.localText_eq] at hop
  obtain ⟨S, D, -, -, hS, hD, -⟩ := Table.moveRows_of_move hop
  have hD' := Table.key_rootText hto.ordinary hD
  have hS' := Table.key_rootText hfrom.ordinary hS
  subst hD' hS'
  have hspared : (∃ n ∈ dest.path.segments, EndsBlank n) ∨
      s.Folds site (.move src dst overwrite) →
      ¬(after.table T).Strays (rootText (settle dest.path.segments)) :=
    hin dest _ (.move hdst hdest) hT (by rw [hto.localText_eq, hD])
  refine Table.Sound.move hsound hfrom.ordinary hto.ordinary hop
    (hto.parent_ne_of_settle_nil hT hold) ?_
  by_cases hp : Table.Plain dest.path.segments
  swap
  · exact .inl (hspared (.inl (hto.exists_endsBlank hp)))
  cases hu : Table.isUnder (rootText (settle source.path.segments))
      (rootText (settle dest.path.segments)) with
  | true =>
    refine .inl (hspared (.inr ⟨srcPath, dstPath, source, dest, _, _, hsrc, hsource, hdst, hdest,
      ?_, ?_, hu⟩))
    · rw [hfrom.localText_eq, hS]
    · rw [hto.localText_eq, hD]
  | false =>
    have hparent : dest.parentExists = true := by
      rcases hold with ⟨-, hparent⟩ | ⟨old, told, hold, -⟩
      · exact hparent
      · exact (hto.of_status hold).1
    exact .inr ⟨hp, fun front hf hne => hto.held hT hp hparent hf hne, rfl⟩

/-! ## All requests -/

/-- **A request leaves a tree** that leaves nothing astray where it puts its entry under a name
ending in a blank or below what goes along with it. -/
theorem sound_after (hs : s.standpoint.Proper) (hsound : (site.table T).Sound)
    {res : Except Error Answer} (hin : s.Spares site q T after)
    (h : (q.work s).eval site = (res, after)) : (after.table T).Sound := by
  by_cases hreads : q.Reads
  · obtain ⟨events, rfl⟩ := (hreads.quiet s).eval_eq h
    exact hsound
  cases q with
  | makeLink target link createParent =>
    obtain ⟨done, h, -⟩ := Action.eval_return_cases h
    exact sound_after_makeLink hs hsound hin h
  | createFile path overwrite createParent =>
    obtain ⟨done, h, -⟩ := Action.eval_return_cases h
    exact sound_after_createFile hs hsound hin h
  | makeDirectory path createParent =>
    obtain ⟨done, h, -⟩ := Action.eval_return_cases h
    exact sound_after_makeDirectory hs hsound h
  | delete path recursive =>
    obtain ⟨done, h, -⟩ := Action.eval_return_cases h
    exact sound_after_delete hsound h
  | move src dst overwrite =>
    obtain ⟨done, h, -⟩ := Action.eval_return_cases h
    exact sound_after_move hs hsound hin h
  | setTimes path accessed modified =>
    obtain ⟨done, h, -⟩ := Action.eval_return_cases h
    exact sound_after_setTimes hsound h
  | _ => exact absurd trivial hreads

end Session

end MountSpace
