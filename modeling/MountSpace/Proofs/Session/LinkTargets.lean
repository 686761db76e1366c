import MountSpace.Proofs.Session.Growth

/-!
# What is read of a link that was made

A new link is stored with the text of its target, where its path ends.  It is found there
afterwards, and the directory that holds it can be listed as long as the text can be read at all.

## Main definitions

* `Session.Awaits` — directories lead to a place where nothing stands.
* `Session.Lists` — a directory can be listed.

Main statements: `Session.makeLink_ok`, `Session.Resolves.after_linked`,
`Session.Lists.after_linked`.
-/

namespace MountSpace

open MountSpace.Path

/-! ## Targets as they are stored -/

/-- The text of a path in normal form is not empty. -/
theorem Path.Normal.text_ne_empty {p : Path} (h : p.Normal) : p.text ≠ "" := by
  intro hempty
  rw [Path.text, Path.localText, ← String.toList_inj] at hempty
  simp only [String.toList_append, String.toList_empty, List.append_eq_nil_iff] at hempty
  obtain ⟨-, hslash, hnames⟩ := hempty
  cases ha : p.absolute with
  | true => simp [ha] at hslash
  | false =>
    obtain ⟨first, rest, hsplit⟩ := List.exists_cons_of_ne_nil (h.ne_nil ha)
    have hfirst := (h.ne_empty (n := first) (by simp [hsplit])).1
    rw [hsplit] at hnames
    cases rest with
    | nil => exact hfirst (by simpa using hnames)
    | cons second rest => simp at hnames

namespace Session

variable {s : Session} {site found mid after : Site} {path : Path} {r : Resolution}
variable {dirs : List String} {m : Mount}

/-- Directories lead to the end of a path, where nothing stands yet. -/
def Awaits (s : Session) (site : Site) (r : Resolution) : Prop :=
  (s.atlas site).Confirmed r.mount r.path.segments.dropLast ∧
    (s.atlas site).lstat r.mount r.path.segments = .ok none

/-- The directory at a path can be listed. -/
def Lists (s : Session) (site : Site) (path : Path) : Prop :=
  ∃ entries later, (s.list (.path path)).eval site = (.ok entries, later)

/-- A link that is made is handed to its mount with the text of its target, once its directory has
been seen to. -/
theorem makeLink_ok {target link : PathArg} {t : Path} {createParent : Bool}
    (ht : target.read = .ok t) (hq : s.qualified link = .ok path)
    (hr : (s.resolve path false).eval site = (.ok r, found))
    (hmid : (prepareParent r path createParent).eval found = (.ok (), mid))
    (h : (s.makeLink target link createParent).eval site = (.ok (), after)) :
    r.status = none ∧ ∃ made events, after = made.told events ∧
      (r.mount.within fun c => c.makeLink r.path.localText (r.mount.capability.attach t).text).eval
        mid = (.ok (), made) := by
  unfold makeLink at h
  rcases Action.eval_check_cases h with ⟨-, he, -⟩ | ⟨-, h⟩
  · cases he
  rw [ht, hq] at h
  rcases Action.eval_ofExcept_cases h with ⟨e, he, -⟩ | ⟨t', ht', h⟩
  · cases he
  obtain rfl : t = t' := Except.ok.inj ht'
  rcases Action.eval_ofExcept_cases h with ⟨e, he, -⟩ | ⟨path', hpath', h⟩
  · cases he
  obtain rfl : path = path' := Except.ok.inj hpath'
  rw [Action.eval_bind, hr] at h
  dsimp only at h
  rcases Action.eval_check_cases h with ⟨-, he, -⟩ | ⟨hstatus, h⟩
  · cases he
  refine ⟨by simpa using hstatus, ?_⟩
  rw [Action.eval_bind, hmid] at h
  dsimp only at h
  rcases Action.eval_bind_cases h with ⟨e, -, he⟩ | ⟨⟨⟩, made, hmade, h⟩
  · cases he
  · cases h
    exact ⟨made, _, rfl, hmade⟩

/-- The target of a link is returned exactly when its path ends at a link with that target. -/
theorem linkTarget_eq_ok_iff {link : PathArg} {target : Path} (hq : s.qualified link = .ok path) :
    (∃ later, (s.linkTarget link).eval site = (.ok target, later)) ↔
      ∃ r status, s.Resolves site path false r ∧ r.status = some status ∧ status.kind = .link ∧
        status.target = some target := by
  unfold linkTarget Resolves
  rw [hq, Action.eval_bind, Action.eval_ofExcept]
  dsimp only
  rw [Action.eval_bind, eval_require]
  cases (s.trace site path false).outcome with
  | error e => simp
  | ok r =>
    dsimp only
    cases hst : r.status with
    | none => simp [hst]
    | some status =>
      dsimp only
      cases hk : status.kind <;> cases ht : status.target <;> simp [hst, hk, ht]

/-- A directory is listed with every entry that its mount lists, located in it. -/
theorem eval_list_directory {arg : PathArg} {status : Status} (hq : s.qualified arg = .ok path)
    (hr : s.Resolves site path true r) (hst : r.status = some status)
    (hk : status.kind = .directory) :
    ((s.list arg).eval site).1 =
      ((r.mount.connection.list r.path.localText).eval site).1 >>= fun entries =>
        (·.mergeSort fun a b => a.path.name ≤ b.path.name) <$>
          entries.mapM fun e => located e (r.path.child [e.path.name]) := by
  have htrace : (s.trace site path true).outcome = .ok r := hr
  have hdirectory : ¬status.kind ≠ .directory := fun hne => hne hk
  have hlist : ∀ events, (r.mount.connection.list r.path.localText).eval (site.told events) =
      (((r.mount.connection.list r.path.localText).eval site).1, site.told events) :=
    fun _ => rfl
  unfold list
  rw [hq, Action.eval_bind, Action.eval_ofExcept]
  dsimp only
  rw [Action.eval_bind, eval_require, htrace]
  dsimp only
  rw [hst]
  dsimp only
  rw [if_neg hdirectory, Action.eval_bind, Mount.eval_within, hlist]
  cases ((r.mount.connection.list r.path.localText).eval site).1 with
  | error e => rfl
  | ok entries =>
    dsimp only
    rw [Action.eval_bind, Action.eval_ofExcept]
    simp only [bind, Except.bind]
    cases entries.mapM fun e => located e (r.path.child [e.path.name]) <;> rfl

/-- A directory at the end of directories is listed with every entry located in it. -/
theorem eval_list_place (ho : ∀ n ∈ dirs, Ordinary n) (hc : (s.atlas site).Confirmed m dirs)
    (hd : (s.atlas site).IsDirectory m dirs)
    (hl : s.registry.lookup (m.place dirs) (m.place dirs) = .ok m) :
    ((s.list (.path (m.place dirs))).eval site).1 =
      ((m.connection.list (rootText dirs)).eval site).1 >>= fun entries =>
        (·.mergeSort fun a b => a.path.name ≤ b.path.name) <$>
          entries.mapM fun e => located e ((m.place dirs).child [e.path.name]) := by
  have hq : s.qualified (.path (m.place dirs)) = .ok (m.place dirs) :=
    congrArg Except.ok (Standpoint.complete_of_isStated (m.place_isStated dirs))
  obtain ⟨status, hk, -, hleg⟩ := Atlas.leg_of_isDirectory true ho hc hd hl
  have htrace : s.trace site (m.place dirs) true =
      ⟨[], .ok ⟨m.place dirs, m, some status, true⟩⟩ := by
    rw [trace_of_isStated (m.place_isStated dirs)]
    exact Atlas.trace_of_arrived hleg
  have hr : s.Resolves site (m.place dirs) true ⟨m.place dirs, m, some status, true⟩ := by
    rw [Resolves, htrace]
  exact eval_list_directory hq hr rfl hk

/-- A directory at the end of directories can be listed exactly when its mount lists it and every
entry can be located in it. -/
theorem lists_iff (ho : ∀ n ∈ dirs, Ordinary n) (hc : (s.atlas site).Confirmed m dirs)
    (hd : (s.atlas site).IsDirectory m dirs)
    (hl : s.registry.lookup (m.place dirs) (m.place dirs) = .ok m) :
    s.Lists site (m.place dirs) ↔
      ∃ entries, ((m.connection.list (rootText dirs)).eval site).1 = .ok entries ∧
        ∀ e ∈ entries, ∃ status, located e ((m.place dirs).child [e.path.name]) = .ok status := by
  have hlist := eval_list_place ho hc hd hl
  constructor
  · rintro ⟨sorted, later, h⟩
    rw [h] at hlist
    obtain ⟨entries, hentries, hmap⟩ := bind_eq_ok.mp hlist.symm
    obtain ⟨found, hmap, -⟩ := map_eq_ok.mp hmap
    refine ⟨entries, hentries, fun e he => ?_⟩
    obtain ⟨status, -, hstatus⟩ := forall_of_mapM hmap he
    exact ⟨status, hstatus⟩
  · rintro ⟨entries, hentries, hall⟩
    obtain ⟨found, hmap⟩ := mapM_eq_ok_of_forall hall
    rw [hentries] at hlist
    simp only [bind, Except.bind, hmap] at hlist
    exact ⟨_, _, Prod.ext hlist rfl⟩

/-- Whether an entry can be located depends on its kind and target. -/
theorem located_congr {st st' status : Status} {path : Path} (h : st.SameEntry st')
    (hl : located st path = .ok status) : ∃ status', located st' path = .ok status' := by
  unfold located at hl ⊢
  rw [h.kind, h.target]
  split at hl
  · obtain ⟨target, htarget, -⟩ := bind_eq_ok.mp hl
    rw [htarget]
    exact ⟨_, rfl⟩
  · exact ⟨_, rfl⟩

/-- Whatever lies below a root can be located. -/
theorem located_of_ne_nil {path : Path} (habs : path.absolute = true) (hne : path.segments ≠ [])
    (st : Status) : ∃ status, located st path = .ok status := by
  have hparent : path.parent? = some { path with segments := path.segments.dropLast } := by
    simp [Path.parent?, habs, hne]
  have htarget : ∀ target, ∃ q, qualifyTarget path target = .ok q := by
    intro target
    unfold qualifyTarget
    split
    · exact ⟨_, rfl⟩
    split
    · rw [hparent]
      exact ⟨_, rfl⟩
    · exact ⟨_, rfl⟩
  unfold located
  split
  · rename_i target _ _
    obtain ⟨q, hq⟩ := htarget target
    rw [hq]
    exact ⟨_, rfl⟩
  · exact ⟨_, rfl⟩

end Session

theorem Path.shorten_shorten (name : String) : shorten (shorten name) = shorten name := by
  simp only [shorten, String.toList_ofList, List.rdropWhile_idempotent]

/-- The name under which a new entry is reported leads below the root. -/
theorem Path.child_settled_ne_nil {names : List String} {name : String}
    (ho : ∀ n ∈ names ++ [name], Ordinary n) (hne : settle (names ++ [name]) ≠ []) (m : Mount) :
    ((m.place names).child [(⟨{}, settle (settle (names ++ [name])), true⟩ : Path).name]).segments
      ≠ [] := by
  have hnames : ∀ n ∈ names, Ordinary n := fun n hn => ho n (by simp [hn])
  have hsettled := settle_ordinary (settle_ordinary ho)
  have hlast : ∀ n, (settle (settle (names ++ [name]))).getLast? = some n → Ordinary n :=
    fun n hn => hsettled n (List.mem_of_getLast? hn)
  by_cases hnil : names = []
  · subst hnil
    rcases settle_cases ho with ⟨-, hname, hs⟩ | ⟨-, hs⟩ | ⟨-, hs⟩
    · have htwice : settle (settle ([] ++ [name])) = [shorten name] := by
        have := settle_concat [] (shorten name)
        rw [shorten_shorten, List.nil_append, collapse_ordinary (by simpa using hname)] at this
        rw [hs, List.nil_append, this]
      have hchild : ((m.place []).child [shorten name]).segments = [shorten name] := by
        rw [m.place_child (by simp) (by simpa using hname)]
        rfl
      have hn : (⟨{}, settle (settle ([] ++ [name])), true⟩ : Path).name = shorten name := by
        rw [htwice]
        rfl
      rw [hn, hchild]
      simp
    · exact absurd hs hne
    · exact absurd hs hne
  · cases hn : (settle (settle (names ++ [name]))).getLast? with
    | none =>
      have hempty : (⟨{}, settle (settle (names ++ [name])), true⟩ : Path).name = "" := by
        simp [Path.name, hn]
      have hchild : ((m.place names).child [""]).segments = names := by
        simp [Path.child, Mount.place, collapse_append, push, collapse_ordinary hnames]
      rw [hempty, hchild]
      exact hnil
    | some last =>
      have hlast' : (⟨{}, settle (settle (names ++ [name])), true⟩ : Path).name = last := by
        simp [Path.name, hn]
      rw [hlast', m.place_child hnames (by simpa using hlast last hn)]
      simp

namespace Session

variable {s : Session} {site found mid after : Site} {path t : Path} {r : Resolution}

/-- Seeing to the directory of a new entry leaves what there is. -/
theorem Ending.grows_of_prepareParent {follow createParent : Bool} (h : s.Ending site follow r)
    (hroot : r.mount.Rooted found) {res : Except Error Unit}
    (hmid : (prepareParent r path createParent).eval found = (res, mid)) : found.Grows mid := by
  refine h.prepareParent_keeps (P := found.Grows) ?_ ?_ (.refl found) hmid
  · intro st next res names _ _ hg hmake
    exact hg.trans (Mount.grows_of_makeDirectory (hroot.of_grows hg) hmake)
  · intro before next hb hn
    exact ⟨hn.disk, hb.table⟩

/-- Once its directory has been seen to, a new entry has a free place, if nothing had to be made. -/
theorem Ending.awaits {events : List Event} {createParent : Bool} (h : s.Ending site false r)
    (hstatus : r.status = none) (hp : r.parentExists = true)
    (hmid : (prepareParent r path createParent).eval (site.told events) = (.ok (), mid)) :
    s.Awaits mid r := by
  rcases prepareParent_cases hmid with ⟨rfl, -⟩ | ⟨hfalse, -⟩
  swap
  · rw [hp] at hfalse
    cases hfalse
  obtain ⟨hl, hc⟩ := h.reported hp
  rw [hstatus] at hl
  exact ⟨hc, hl⟩

/-- A link is found again where it was made. -/
theorem Resolves.after_linked {init : List String} {last : String}
    (hr : s.Resolves site path false r) (hp : path.Normal) (habs : path.absolute = true)
    (hsplit : r.path.segments = init ++ [last]) (hext : (s.atlas site).Extends (s.atlas after))
    (hc : (s.atlas after).Confirmed r.mount init) {r' : Resolution} :
    s.Resolves after path false r' ↔ ∃ status,
      (s.atlas after).lstat r.mount (init ++ [last]) = .ok status ∧
        r' = ⟨r.path, r.mount, status, true⟩ := by
  have hend := hr.ending hp habs
  have hplace : r.path = r.mount.place (init ++ [last]) := by rw [← hsplit]; exact hend.path_eq
  obtain ⟨less, hless⟩ := hext.trace_outcome (s.targetsNormal site) (by simpa)
    (by simpa using hp.ordinary habs) hr
  have howner := Atlas.lookup_asked (Atlas.start s.standpoint path) hend.owner
  rw [hplace] at howner
  have hleg := Atlas.leg_last (a := s.atlas after) (hsplit ▸ hend.ordinary) hc howner
  have houtcome : (s.trace after path false).outcome =
      ((s.atlas after).trace (Atlas.start s.standpoint path) false less r.path).outcome := hless
  unfold Resolves
  rw [houtcome, hplace]
  cases hl : (s.atlas after).lstat r.mount (init ++ [last]) with
  | error e =>
    rw [hl] at hleg
    rw [Atlas.trace_of_error hleg]
    simp
  | ok status =>
    rw [hl] at hleg
    rw [Atlas.trace_of_arrived hleg]
    simp [eq_comm]

/-- The directory of a new link is listed as before, if the link's text can be read. -/
theorem Lists.after_linked {m : Mount} {init : List String} {last text : String}
    (hlinked : m.Linked mid after (init ++ [last]) text) (hread : Path.read text = .ok t)
    (hroot : m.Rooted mid) (ho : ∀ n ∈ init ++ [last], Ordinary n)
    (hc : (s.atlas mid).Confirmed m init)
    (howner : s.registry.lookup (m.place init) (m.place init) = .ok m)
    (h : s.Lists mid (m.place init)) : s.Lists after (m.place init) := by
  have hinit : ∀ n ∈ init, Ordinary n := fun n hn => ho n (by simp [hn])
  have hext : (s.atlas mid).Extends (s.atlas after) := hlinked.grows.extends s
  have hdir : (s.atlas mid).IsDirectory m init := by
    by_cases hnil : init = []
    · rw [hnil]
      exact hroot
    · exact hc init List.prefix_rfl hnil
  obtain ⟨entries, hentries, hall⟩ := (lists_iff hinit hc hdir howner).mp h
  obtain ⟨entries', hentries', hall'⟩ := hlinked.list t hread init hinit hdir entries hentries
  refine (lists_iff hinit (hext.confirmed hinit hc) (hext.isDirectory hinit hdir) howner).mpr
    ⟨entries', hentries', fun e' he' => ?_⟩
  rcases hall' e' he' with ⟨e, he, hsame, hpath⟩ | hnew
  · obtain ⟨status, hlocated⟩ := hall e he
    rw [hpath]
    exact located_congr hsame hlocated
  · rw [hnew]
    exact located_of_ne_nil rfl (child_settled_ne_nil ho hlinked.settle_ne_nil m) e'

end Session

end MountSpace
