import MountSpace.Proofs.Session.Gains

/-!
# Targets that come back

Every request for the target of a link reads the text with which the link was made.  So the target
comes back exactly when it is read again from its own text.  The link is found again where it was
made because nothing stood there and directories led there, also when they had to be made first.

Main statement: `Session.linkTarget_iff_lasting`.
-/

namespace MountSpace

open MountSpace.Path

namespace Mount

variable {m : Mount} {site after : Site} {names : List String} {text : String}

/-- **Where a link could be made** nothing was reported, and on a disk directories led there. -/
theorem free_of_makeLink (hroot : m.Rooted site) (hp : Table.Plain names) (hne : names ≠ [])
    (h : (m.within fun c => c.makeLink (rootText names) text).eval site = (.ok (), after)) :
    m.statusIn site (rootText names) = .ok none ∧
      ∀ host, m.backend.storage = .disk host → ∀ front, OnTheWay front names →
        ∃ st, m.statusIn site (rootText front) = .ok (some st) ∧ st.kind = .directory := by
  obtain ⟨root, hstatus, -⟩ := id hroot
  rcases m.storage_cases hstatus with ⟨host, hs⟩ | ⟨T, hT⟩
  · have hwork := m.connection.makeLink_onDisk hs (rootText names) text
    obtain ⟨-, ⟨⟨e, he⟩, -⟩ | ⟨d, hop, -, -⟩⟩ := within_changeDisk hwork h
    · cases he
    have hhome := hroot.homed hs
    obtain ⟨way, hway, hcreate⟩ := Disk.makeLink_eq_ok hop
    obtain ⟨p, hread, -, -⟩ := Disk.way_eq_ok.mp hway
    obtain ⟨rfl, hstraight⟩ := hhome.way_eq hp.ordinary hway
    rw [hp.settle_eq] at hstraight hcreate
    obtain ⟨hopen, hfree, -⟩ := HostTree.Base.place_of_create hhome hstraight hp.ordinary hcreate
    constructor
    · obtain rfl := eq_of_read_rootText hp.ordinary hread
      rw [statusIn_disk hs, Disk.status_of_open hhome hread]
      · dsimp only
        rw [hp.settle_eq, hfree]
      · exact settle_ordinary hp.ordinary
      · rwa [hp.settle_eq]
    · intro other hother front hfront
      obtain rfl : host = other := Storage.disk.inj (hs.symm.trans hother)
      obtain ⟨st, hst, hk⟩ := hhome.directory_of_open hp hread hopen hfront
      exact ⟨st, (statusIn_disk hs site _).trans hst, hk⟩
  · obtain ⟨name, hs⟩ := storage_of_table? hT
    have hwork := m.connection.makeLink_onTable hs (rootText names) text
    obtain ⟨-, ⟨⟨e, he⟩, -⟩ | ⟨T', hT', -, hop, -⟩⟩ := within_changeTable hs hwork h
    · cases he
    obtain rfl : T = T' := Option.some.inj (hT.symm.trans hT')
    obtain ⟨key, hkey, hinsert⟩ := Table.insert_of_makeLink hop
    have hspelt := Table.key_rootText hp.ordinary hkey
    rw [hp.settle_eq] at hspelt
    subst hspelt
    constructor
    · rw [statusIn_table hT, Table.status_of_find hkey (rootText_ne hp.ordinary hne)
        (Table.find_of_insert hinsert)]
      rfl
    · intro host hdisk
      rw [hs] at hdisk
      cases hdisk

end Mount

namespace Session

variable {s : Session} {site found mid after : Site} {path t : Path} {r : Resolution}

/-- Where a link could be made once missing directories had been made, they led to a free place, if
no name ends with a blank. -/
theorem Ending.awaits_of_made {asked : Path} {createParent follow : Bool} {events : List Event}
    {text : String} (h : s.Ending site follow r) (hparent : r.parentExists = false)
    (hroot : r.mount.Rooted mid) (hsound : ∀ T, r.mount.table? = some T → (site.table T).Sound)
    (hp : Table.Plain r.path.segments)
    (hprep : (prepareParent r asked createParent).eval (site.told events) = (.ok (), mid))
    (hmade : (r.mount.within fun c => c.makeLink (rootText r.path.segments) text).eval mid =
      (.ok (), after)) : s.Awaits mid r := by
  have hne : r.path.segments ≠ [] := by
    rcases h.arrives with ⟨htrue, -⟩ | ⟨-, -, front, name, hway, -⟩
    · cases hparent.symm.trans htrue
    · rintro hnil
      have := hway.1.length_le
      simp [hnil] at this
  obtain ⟨hfree, hdirs⟩ := Mount.free_of_makeLink hroot hp hne hmade
  refine ⟨?_, hfree⟩
  rcases r.mount.storage_cases hfree with ⟨host, hs⟩ | ⟨T, hT⟩
  · exact fun front hf hnil => hdirs host hs front (.of_prefix_dropLast hf hnil)
  · exact h.confirmed_prepareParent hT (hsound T hT) hp hprep

/-- **A target comes back exactly when it lasts.**  Once a link was made, its target is returned as
it was given, put into the mount if the mount is to be named, and its directory can be listed as
before, exactly when the path is one that is read again from its own text.

If directories had to be made for the link, no name on its way ends with a blank and the rows of its
table form a tree, or the directories have come to lead to a free place in some other way. -/
theorem linkTarget_iff_lasting (hs : s.standpoint.Proper) {raw link : String}
    {createParent : Bool} (ht : Path.read raw = .ok t) (hq : s.qualified (.text link) = .ok path)
    (hr : (s.resolve path false).eval site = (.ok r, found)) (hroot : r.mount.Rooted site)
    (hmid : (prepareParent r path createParent).eval found = (.ok (), mid))
    (hway : r.parentExists = false → Table.Plain r.path.segments ∧
      (∀ T, r.mount.table? = some T → (site.table T).Sound) ∨ s.Awaits mid r)
    (h : (s.makeLink (.text raw) (.text link) createParent).eval site = (.ok (), after)) :
    ((∃ later, (s.linkTarget (.text link)).eval after =
        (.ok (r.mount.capability.attach t), later)) ∧
      ∀ dir, r.path.parent? = some dir → s.Lists mid dir → s.Lists after dir) ↔
    (r.mount.capability.attach t).Lasting := by
  obtain ⟨hresolves, events, rfl⟩ := resolves_of_eval hr
  have hcomplete := s.complete_of_qualified hs hq
  have hend := hresolves.ending hcomplete.normal hcomplete.absolute
  have htext : (PathArg.text raw).read = .ok t := ht
  obtain ⟨hstatus, made, told, rfl, hmade⟩ := makeLink_ok htext hq hr hmid h
  have htarget := r.mount.capability.attach_normal (normal_of_read ht)
  have hclean : Clean (r.mount.capability.attach t).segments := by
    rw [Capability.attach_segments]
    exact clean_of_parse (mapError_eq_ok.mp ht)
  rw [← read_text_iff htarget hclean]
  generalize r.mount.capability.attach t = target at hmade htarget ⊢
  -- The link is made where nothing stands, at the end of directories.
  have hrootFound : r.mount.Rooted (site.told events) := hroot
  have hgrown := hend.grows_of_prepareParent hrootFound hmid
  have hrootMid : r.mount.Rooted mid := hrootFound.of_grows hgrown
  rw [hend.localText_eq] at hmade
  obtain ⟨hconf, hfree⟩ : s.Awaits mid r := by
    cases hparent : r.parentExists with
    | true => exact hend.awaits hstatus hparent hmid
    | false =>
      rcases hway hparent with ⟨hp, hsound⟩ | hawaits
      · exact hend.awaits_of_made hparent hrootMid hsound hp hmid hmade
      · exact hawaits
  have hlinked := (Mount.linked_of_makeLink hrootMid hend.ordinary htarget.text_ne_empty hfree
    hmade).told told
  generalize made.told told = after at hlinked ⊢
  obtain ⟨init, last, hsplit⟩ := (List.eq_nil_or_concat' r.path.segments).resolve_left fun hnil =>
    hlinked.settle_ne_nil (by rw [hnil, settle_nil])
  have ho : ∀ n ∈ init ++ [last], Ordinary n := hsplit ▸ hend.ordinary
  rw [hsplit, List.dropLast_concat] at hconf
  rw [hsplit] at hlinked
  have hext : (s.atlas site).Extends (s.atlas after) := (hgrown.trans hlinked.grows).extends s
  have hconf' : (s.atlas after).Confirmed r.mount init :=
    (hlinked.grows.extends s).confirmed (fun n hn => ho n (by simp [hn])) hconf
  have hafter : ∀ {r'}, s.Resolves after path false r' ↔ _ :=
    hresolves.after_linked hcomplete.normal hcomplete.absolute hsplit hext hconf'
  rw [linkTarget_eq_ok_iff hq]
  constructor
  · rintro ⟨⟨r', status, hr', hst, -, htg⟩, -⟩
    obtain ⟨found, hl, rfl⟩ := hafter.mp hr'
    obtain ⟨st, back, rfl, hback, hread⟩ := hlinked.read found hl
    obtain rfl : st = status := Option.some.inj hst
    obtain rfl : target = back := Option.some.inj (htg.symm.trans hback)
    exact hread
  · intro hread
    refine ⟨?_, ?_⟩
    · obtain ⟨st, hst, hk, htg⟩ := hlinked.status target hread
      exact ⟨_, st, hafter.mpr ⟨some st, hst, rfl⟩, rfl, hk, htg⟩
    · intro dir hdir hlists
      have hparent : r.path.parent? = some (r.mount.place init) := by
        rw [hend.path_eq, hsplit, Mount.place_parent?]
      obtain rfl : r.mount.place init = dir := Option.some.inj (hparent.symm.trans hdir)
      exact hlists.after_linked hlinked hread hrootMid ho hconf
        (Atlas.lookup_place hend.owner init (r.mount.place init))

/-- A relative target that leads up, of a link whose directory is made with it. -/
theorem linkTarget_iff_lasting_upwards :
    let s := alone (.ofHost "h")
    let t : Path := { segments := ["..", "a b"], absolute := false }
    ∃ path r found mid after, s.standpoint.Proper ∧ Path.read "../a b" = .ok t ∧
      s.qualified (.text "/d/l") = .ok path ∧
      (s.resolve path false).eval (.emptyHost "h") = (.ok r, found) ∧
      r.mount.Rooted (.emptyHost "h") ∧
      (prepareParent r path true).eval found = (.ok (), mid) ∧
      (r.parentExists = false ∧ Table.Plain r.path.segments ∧
        ∀ T, r.mount.table? = some T → ((Site.emptyHost "h").table T).Sound) ∧
      (s.makeLink (.text "../a b") (.text "/d/l") true).eval (.emptyHost "h") = (.ok (), after) ∧
      (((∃ later, (s.linkTarget (.text "/d/l")).eval after =
          (.ok (r.mount.capability.attach t), later)) ∧
        ∀ dir, r.path.parent? = some dir → s.Lists mid dir → s.Lists after dir) ↔
      (r.mount.capability.attach t).Lasting) := by
  intro s t
  let path : Path := { location := ⟨some "file", none⟩, segments := ["d", "l"] }
  let r : Resolution := ⟨path, .ofHost "h", none, false⟩
  let found := ((s.resolve path false).eval (.emptyHost "h")).2
  have hs : s.standpoint.Proper := Capability.rootPath_complete _
  have ht : Path.read "../a b" = .ok t := by decide +kernel
  have hq : s.qualified (.text "/d/l") = .ok path := by decide +kernel
  have hend : ((s.resolve path false).eval (.emptyHost "h")).1 = .ok r := by decide +kernel
  have hr : (s.resolve path false).eval (.emptyHost "h") = (.ok r, found) := Prod.ext hend rfl
  have hroot : (Mount.ofHost "h").Rooted (.emptyHost "h") := by decide +kernel
  have hprep : ((prepareParent r path true).eval found).1 = .ok () := by decide +kernel
  have hmade : ((s.makeLink (.text "../a b") (.text "/d/l") true).eval (.emptyHost "h")).1 =
      .ok () := by decide +kernel
  have hplain : Table.Plain ["d", "l"] := by
    unfold Table.Plain
    decide +kernel
  obtain ⟨mid, hmid⟩ : ∃ mid, (prepareParent r path true).eval found = (.ok (), mid) :=
    ⟨_, Prod.ext hprep rfl⟩
  obtain ⟨after, h⟩ : ∃ after, (s.makeLink (.text "../a b") (.text "/d/l") true).eval
      (.emptyHost "h") = (.ok (), after) := ⟨_, Prod.ext hmade rfl⟩
  exact ⟨path, r, found, mid, after, hs, ht, hq, hr, hroot, hmid, ⟨rfl, hplain, nofun⟩, h,
    linkTarget_iff_lasting hs ht hq hr hroot hmid (fun _ => .inl ⟨hplain, nofun⟩) h⟩

/-- A blank at the end of a target is lost. -/
theorem linkTarget_shortened :
    let s := alone (.ofHost "h")
    let t : Path := { segments := ["a "], absolute := false }
    Path.read "a /" = .ok t ∧ ∃ after,
      (s.makeLink (.text "a /") (.text "/l") false).eval (.emptyHost "h") = (.ok (), after) ∧
      ∀ later, (s.linkTarget (.text "/l")).eval after ≠ (.ok t, later) := by
  intro s t
  refine ⟨by decide +kernel, ((s.makeLink (.text "a /") (.text "/l") false).eval
    (.emptyHost "h")).2, Prod.ext (by decide +kernel) rfl, fun later hback => ?_⟩
  have htarget : ((s.linkTarget (.text "/l")).eval ((s.makeLink (.text "a /") (.text "/l")
      false).eval (.emptyHost "h")).2).1 = .ok { segments := ["a"], absolute := false } := by
    decide +kernel
  rw [hback] at htarget
  exact absurd (Except.ok.inj htarget) (by decide)

end Session

end MountSpace
