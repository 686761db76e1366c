import MountSpace.Proofs.Session.Stores
import MountSpace.Proofs.Store.Links

/-!
# Sites that grow

Making entries takes nothing away: what stores reported they still report, and so paths still lead
where they led.  A new link adds to this what is read of its own text.

## Main definitions

* `Site.Grows` — disks and tables still report what they reported.
* `Mount.Linked` — what a mount reports once it holds a new link.

Main statements: `Site.Grows.extends`, `Mount.grows_of_makeDirectory`, `Mount.linked_of_makeLink`.
-/

namespace MountSpace

open MountSpace.Path

/-! ## Sites that grow -/

theorem HostTree.Grows.trans {t mid t' : HostTree} (h : HostTree.Grows t mid)
    (h' : HostTree.Grows mid t') : HostTree.Grows t t' :=
  ⟨h'.limits.trans h.limits, fun place node hnode => h'.node _ _ (h.node place node hnode)⟩

/-- Disks whose homes are directories, and all tables, still report what they reported; all other
disks are as they were. -/
structure Site.Grows (site after : Site) : Prop where
  disk : ∀ host, after.disk host = site.disk host ∨
    (site.disk host).Homed ∧ HostTree.Grows (site.disk host).tree (after.disk host).tree
  table : ∀ T, Table.Grows (site.table T) (after.table T)

namespace Site.Grows

variable {site mid after : Site}

theorem of_same (hd : ∀ host, after.disk host = site.disk host)
    (ht : ∀ T, after.table T = site.table T) : site.Grows after where
  disk host := .inl (hd host)
  table T _ _ h := by rwa [ht]

theorem refl (site : Site) : site.Grows site := of_same (fun _ => rfl) fun _ => rfl

theorem trans (h : site.Grows mid) (h' : mid.Grows after) : site.Grows after where
  disk host := by
    rcases h.disk host with hsame | ⟨hhome, hgrows⟩
    · rw [← hsame]
      exact h'.disk host
    rcases h'.disk host with hsame' | ⟨-, hgrows'⟩
    · rw [hsame']
      exact .inr ⟨hhome, hgrows⟩
    · exact .inr ⟨hhome, hgrows.trans hgrows'⟩
  table T key row hrow := h'.table T key row (h.table T key row hrow)

end Site.Grows

theorem Site.Grows.statusIn {site after : Site} (h : site.Grows after) {m : Mount}
    {names : List String} (hn : ∀ n ∈ names, Ordinary n) {status : Status}
    (hs : m.statusIn site (rootText names) = .ok (some status)) :
    ∃ status', m.statusIn after (rootText names) = .ok (some status') ∧
      status.SameEntry status' := by
  rcases m.storage_cases hs with ⟨host, hdisk⟩ | ⟨T, hT⟩
  · rw [Mount.statusIn_disk hdisk] at hs ⊢
    rcases h.disk host with hsame | ⟨hhome, hgrows⟩
    · rw [hsame]
      exact ⟨status, hs, .refl status⟩
    · exact hhome.status_of_grows hgrows hn hs
  · rw [Mount.statusIn_table hT] at hs ⊢
    exact ⟨status, Table.status_of_grows (h.table T) hs, .refl status⟩

theorem Site.Grows.extends {site after : Site} (h : site.Grows after) (s : Session) :
    (s.atlas site).Extends (s.atlas after) where
  registry := rfl
  lstat _ _ _ ho hs := h.statusIn ho hs

/-! ## New entries in mounts -/

/-- What a mount reports once it holds a new link. -/
structure Mount.Linked (m : Mount) (site after : Site) (names : List String) (text : String) :
    Prop where
  /-- Nothing is lost. -/
  grows : site.Grows after
  /-- The link is not kept as the root. -/
  settle_ne_nil : settle names ≠ []
  /-- The link is reported if its text can be read. -/
  status : ∀ target, Path.read text = .ok target → ∃ st,
    m.statusIn after (rootText names) = .ok (some st) ∧ st.kind = .link ∧ st.target = some target
  /-- Whatever is reported of it is read from its text. -/
  read : ∀ found, m.statusIn after (rootText names) = .ok found →
    ∃ st target, found = some st ∧ st.target = some target ∧ Path.read text = .ok target
  /-- Directories are listed as before, and the link with its own. -/
  list : ∀ target, Path.read text = .ok target → ∀ dirs, (∀ n ∈ dirs, Ordinary n) →
    (∃ st, m.statusIn site (rootText dirs) = .ok (some st) ∧ st.kind = .directory) →
    ∀ entries, ((m.connection.list (rootText dirs)).eval site).1 = .ok entries →
    ∃ entries', ((m.connection.list (rootText dirs)).eval after).1 = .ok entries' ∧
      ∀ e' ∈ entries', (∃ e ∈ entries, e.SameEntry e' ∧ e'.path = e.path) ∨
        e'.path = ⟨{}, settle (settle names), true⟩

theorem Mount.Linked.told {m : Mount} {site after : Site} {names : List String} {text : String}
    (h : m.Linked site after names text) (events : List Event) :
    m.Linked site (after.told events) names text where
  grows := ⟨h.grows.disk, h.grows.table⟩
  settle_ne_nil := h.settle_ne_nil
  status := h.status
  read := h.read
  list := h.list

theorem Connection.eval_changeDisk (host : String) (f : Instant → Disk → Except Error Disk)
    (site : Site) : (changeDisk host f).eval site = match f site.now (site.disk host) with
      | .ok d => (.ok (), site.setDisk host d)
      | .error e => (.error e, site.setDisk host (site.disk host)) := by
  unfold changeDisk Work.onDisk
  rw [Action.eval_ofFun]
  dsimp only
  cases f site.now (site.disk host) <;> rfl

namespace Mount

variable {m : Mount} {site after : Site} {text : String} {names : List String}

theorem Rooted.of_grows (h : m.Rooted site) (hg : site.Grows after) : m.Rooted after := by
  obtain ⟨status, hs, hk⟩ := h
  have hnone : ∀ n ∈ ([] : List String), Ordinary n := by simp
  obtain ⟨status', hs', hsame⟩ := hg.statusIn hnone hs
  exact ⟨status', hs', hsame.kind.trans hk⟩

/-- The table of a mount has grown, and nothing else has changed. -/
theorem grows_of_table {T : TableName} (hd : ∀ host, after.disk host = site.disk host)
    (hg : Table.Grows (site.table T) (after.table T))
    (ho : ∀ other, other ≠ T → after.table other = site.table other) : site.Grows after where
  disk host := .inl (hd host)
  table other := by
    by_cases heq : other = T
    · rw [heq]
      exact hg
    · intro key row hrow
      rwa [ho other heq]

/-- The disk of a mount has grown, and nothing else has changed. -/
theorem grows_of_disk {host : String} {d : Disk} (hhome : (site.disk host).Homed)
    (hg : HostTree.Grows (site.disk host).tree d.tree)
    (hd : ∀ other, after.disk other = if other = host then d else site.disk other)
    (ht : ∀ T, after.table T = site.table T) : site.Grows after where
  disk other := by
    rw [hd]
    split
    · rename_i heq
      rw [heq]
      exact .inr ⟨hhome, hg⟩
    · exact .inl rfl
  table T key row hrow := by rwa [ht]

/-- Making a directory leaves what there is. -/
theorem grows_of_makeDirectory (hroot : m.Rooted site) {path : String} {res : Except Error Unit}
    (h : (m.connection.makeDirectory path).eval site = (res, after)) : site.Grows after := by
  obtain ⟨root, hstatus, -⟩ := id hroot
  rcases m.storage_cases hstatus with ⟨host, hs⟩ | ⟨T, hT⟩
  · rw [m.connection.makeDirectory_onDisk hs path, Connection.eval_changeDisk] at h
    cases hop : (site.disk host).makeDirectory site.now path with
    | error e =>
      rw [hop] at h
      cases h
      exact .of_same (fun other =>
        Site.disk_setDisk.trans (ite_eq_right_iff.mpr fun heq => by rw [heq])) fun T => rfl
    | ok d =>
      rw [hop] at h
      cases h
      obtain ⟨way, -, hcreate⟩ := Disk.makeDirectory_eq_ok hop
      exact grows_of_disk (hroot.homed hs) (HostTree.grows_of_create hcreate)
        (fun other => Site.disk_setDisk) fun T => rfl
  · obtain ⟨name, hs⟩ := storage_of_table? hT
    have hwork := m.connection.makeDirectory_onTable hs path
    rw [hwork, eval_changeTable hT hs] at h
    cases hop : (site.table T).makeDirectory site.now path with
    | error e =>
      rw [hop] at h
      cases h
      exact .refl site
    | ok t =>
      rw [hop] at h
      cases h
      obtain ⟨key, parent, name, -, -, -, hinsert⟩ := Table.insert_of_makeDirectory hop
      refine grows_of_table (T := T) (fun host => rfl) ?_ fun other hne => ?_
      · rw [Site.table_setTable, if_pos rfl]
        exact Table.grows_of_insert hinsert
      · rw [Site.table_setTable, if_neg hne]

theorem linked_of_makeLink_disk {host : String} (hs : m.backend.storage = .disk host)
    (hroot : m.Rooted site) (hn : ∀ n ∈ names, Ordinary n)
    (h : (m.within fun c => c.makeLink (rootText names) text).eval site = (.ok (), after)) :
    m.Linked site after names text := by
  have hwork := m.connection.makeLink_onDisk hs (rootText names) text
  obtain ⟨ht, ⟨⟨e, he⟩, -⟩ | ⟨d, hop, -, hd⟩⟩ := within_changeDisk hwork h
  · cases he
  have hafter : after.disk host = d := by rw [hd, if_pos rfl]
  have hhome := hroot.homed hs
  have hadds := hhome.adds_of_makeLink hn hop
  obtain ⟨hstatus, hread⟩ := hhome.status_of_makeLink hn hop
  refine ⟨grows_of_disk hhome hadds.grows hd ht, hadds.ne_nil, ?_, ?_, ?_⟩
  · rwa [statusIn_disk hs, hafter]
  · rwa [statusIn_disk hs, hafter]
  · rintro target htext dirs hdirs ⟨st, hst, hk⟩ entries hentries
    rw [statusIn_disk hs] at hst
    rw [list_disk hs] at hentries
    rw [list_disk hs, hafter]
    exact hhome.list_of_makeLink hn hdirs hop htext hst hk hentries

theorem linked_of_makeLink_table {T : TableName} (hT : m.table? = some T)
    (hn : ∀ n ∈ names, Ordinary n) (hne : text ≠ "")
    (hfree : m.statusIn site (rootText names) = .ok none)
    (h : (m.within fun c => c.makeLink (rootText names) text).eval site = (.ok (), after)) :
    m.Linked site after names text := by
  obtain ⟨name, hs⟩ := storage_of_table? hT
  have hwork := m.connection.makeLink_onTable hs (rootText names) text
  obtain ⟨hd, ⟨⟨e, he⟩, -⟩ | ⟨T', hT', -, hop, ho⟩⟩ := within_changeTable hs hwork h
  · cases he
  obtain rfl : T = T' := Option.some.inj (hT.symm.trans hT')
  obtain ⟨-, hinsert⟩ := Table.link_of_makeLink hn hop
  have hsettle : settle names ≠ [] := by
    intro hnil
    rw [statusIn_table hT] at hfree
    cases Table.status_of_settle_nil hn hnil hfree
  obtain ⟨hstatus, hread⟩ := Table.status_of_makeLink hn hsettle hne hop
  refine ⟨grows_of_table hd (Table.grows_of_insert hinsert) ho, hsettle, ?_, ?_, ?_⟩
  · rwa [statusIn_table hT]
  · rwa [statusIn_table hT]
  · rintro target htext dirs - - entries hentries
    rw [list_table hT] at hentries
    rw [list_table hT]
    obtain ⟨entries', hlist, hall⟩ := Table.list_of_makeLink hn hne hop htext hentries
    exact ⟨entries', hlist, fun e' he' =>
      (hall e' he').imp_left fun hin => ⟨e', hin, .refl e', rfl⟩⟩

/-- **What comes of a new link** in a mount whose root is a directory. -/
theorem linked_of_makeLink (hroot : m.Rooted site) (hn : ∀ n ∈ names, Ordinary n) (hne : text ≠ "")
    (hfree : m.statusIn site (rootText names) = .ok none)
    (h : (m.within fun c => c.makeLink (rootText names) text).eval site = (.ok (), after)) :
    m.Linked site after names text := by
  rcases m.storage_cases hfree with ⟨host, hs⟩ | ⟨T, hT⟩
  · exact linked_of_makeLink_disk hs hroot hn h
  · exact linked_of_makeLink_table hT hn hne hfree h

end Mount

end MountSpace
