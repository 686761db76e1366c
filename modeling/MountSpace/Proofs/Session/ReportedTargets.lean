import MountSpace.Proofs.Session.Composition
import MountSpace.Proofs.Session.Order

/-!
# Where a reported link leads

Following a link and reporting where it leads take the stored target apart on their own.  They come
to one path: following a path whose end is a link leads where the reported target leads, as far as
the bound on links allows.  The root of a store is the exception, since a walk takes it on trust
and never follows it.

## Main definitions

* `Session.LeadsTo` — what finding an entry and finding a reported target have to do with each
  other.
* `Session.reported` — what is reported of the end of a path.

Main statement: `Session.leadsTo_iff`.
-/

namespace MountSpace

namespace Session

/-- The target is where the path leads: the entries found are one, and the failures are of one
kind, unless there are too many links on the path for it to be followed to its end. -/
structure LeadsTo (s : Session) (site : Site) (arg : PathArg) (target : Path) : Prop where
  /-- What is found at the path is found at the target. -/
  found : ∀ status, ((s.status arg).eval site).1 = .ok status →
    ((s.status (.path target)).eval site).1 = .ok status
  /-- What keeps the path from being found keeps the target from being found. -/
  fails : ∀ e, ((s.status arg).eval site).1 = .error e → e.kind ≠ .cyclicLink →
    ∃ e', ((s.status (.path target)).eval site).1 = .error e' ∧ e'.kind = e.kind
  /-- If only the target is found, there are too many links on the path. -/
  cyclic : ∀ status, ((s.status (.path target)).eval site).1 = .ok status →
    (∀ other, ((s.status arg).eval site).1 ≠ .ok other) →
    ∃ e, ((s.status arg).eval site).1 = .error e ∧ e.kind = .cyclicLink

variable {s : Session} {site : Site} {arg : PathArg} {path target : Path} {r : Resolution}

theorem leadsTo_of_sameOutcome (h : SameOutcome Eq ((s.status arg).eval site).1
    ((s.status (.path target)).eval site).1) : s.LeadsTo site arg target := by
  cases hx : ((s.status arg).eval site).1 <;>
    cases hy : ((s.status (.path target)).eval site).1 <;> rw [hx, hy] at h
  · cases h with | error hkind =>
    constructor
    · simp [hx]
    · rintro e he -
      rw [hx] at he
      cases he
      exact ⟨_, hy, hkind.symm⟩
    · simp [hy]
  · cases h
  · cases h
  · cases h with | ok heq =>
    constructor
    · rintro status hs
      rw [hx] at hs
      rw [hy, ← heq, hs]
    · simp [hx]
    · exact fun _ _ hnone => absurd hx (hnone _)

theorem leadsTo_of_cyclic {e : Error} (h : ((s.status arg).eval site).1 = .error e)
    (hkind : e.kind = .cyclicLink) : s.LeadsTo site arg target := by
  constructor
  · simp [h]
  · rintro e' he hne
    rw [h] at he
    cases he
    exact absurd hkind hne
  · exact fun _ _ _ => ⟨e, h, hkind⟩

/-! ## What is reported of the end of a path -/

/-- What is reported of the end of a path. -/
def reported (path : Path) (outcome : Except Error Resolution) : Except Error Status := do
  let r ← outcome
  match r.status with
  | some status => located status r.path
  | none => throw (.notFound path.text)

theorem eval_required_located (s : Session) (path : Path) (follow : Bool) (site : Site) :
    (Action.eval (do
      let (r, status) ← s.require path follow
      Action.ofExcept (located status r.path)) site).1 =
      reported path (s.trace site path follow).outcome := by
  rw [Action.eval_bind, eval_require]
  unfold reported
  cases (s.trace site path follow).outcome with
  | error e => rfl
  | ok r =>
    cases hst : r.status <;>
      simp [hst, bind, Except.bind, throw, throwThe, MonadExceptOf.throw]

theorem eval_status_fst (hq : s.qualified arg = .ok path) :
    ((s.status arg).eval site).1 = reported path (s.trace site path true).outcome := by
  unfold status
  rw [hq]
  exact eval_required_located s path true site

theorem eval_linkStatus_fst (hq : s.qualified arg = .ok path) :
    ((s.linkStatus arg).eval site).1 = reported path (s.trace site path false).outcome := by
  unfold linkStatus
  rw [hq]
  exact eval_required_located s path false site

theorem reported_alike {other : Path} {x y : Except Error Resolution} (h : SameOutcome Eq x y) :
    SameOutcome Eq (reported path x) (reported other y) := by
  refine h.bind ?_
  rintro r _ rfl
  cases r.status with
  | none => exact .error rfl
  | some status => exact .of_refl (fun _ => rfl) _

end Session

/-! ## Two ways of completing a stored target -/

section Targets

variable {m : Mount} {front : List String} {name : String} {raw asked : Path}

theorem Path.Complete.child_nil {p : Path} (h : p.Complete) : p.child [] = p := by
  have hsegments := Atlas.child_segments (h.normal.ordinary h.absolute) (List.forall_mem_nil _)
  rw [List.append_nil] at hsegments
  cases p
  simpa [Path.child] using hsegments

/-- The directory of a link as a place to stand: what is stored in the link is completed there. -/
def Mount.standpointAt (m : Mount) (names : List String) : Standpoint :=
  ⟨m.place names, m.capability⟩

theorem Mount.standpointAt_proper (hfront : ∀ n ∈ front, Ordinary n) :
    (m.standpointAt front).Proper :=
  ⟨Path.normal_of_ordinary rfl hfront, rfl, rfl⟩

theorem Mount.complete_relative (hl : raw.location.isStated = false) (ha : raw.absolute = false) :
    (m.standpointAt front).complete raw = (m.place front).child raw.segments := by
  have hstated : m.location.isStated = true := rfl
  simp [Standpoint.complete, Standpoint.qualify, Standpoint.makeAbsolute, hl, ha,
    standpointAt, Path.join, hstated]

theorem Mount.complete_absolute (hl : raw.location.isStated = false) (ha : raw.absolute = true) :
    (m.standpointAt front).complete raw = raw.withLocation m.location := by
  simp [Standpoint.complete, Standpoint.qualify, Standpoint.makeAbsolute, hl, ha,
    standpointAt, location]

/-- A reported target is completed from the directory of the link. -/
theorem Session.qualifyTarget_place :
    qualifyTarget (m.place (front ++ [name])) raw = .ok ((m.standpointAt front).complete raw) := by
  unfold qualifyTarget
  cases hl : raw.location.isStated with
  | true => rw [if_pos rfl, Standpoint.complete_of_isStated hl]
  | false =>
    cases ha : raw.absolute with
    | true =>
      rw [Mount.complete_absolute hl ha]
      rfl
    | false =>
      rw [Mount.complete_relative hl ha]
      simp [Mount.place_parent?, Path.join, ha, hl]

/-- A link in the last place sends the walk to its target, completed from the directory of the
link. -/
theorem Atlas.onward_last (hfront : ∀ n ∈ front, Ordinary n) (hraw : raw.Normal)
    (hok : ¬(raw.location.scheme = none ∧ raw.location.authority ≠ none)) :
    onward m (m.place (front ++ [name])) raw [] asked =
      .ok ((m.standpointAt front).complete raw) := by
  have hcomplete : ((m.standpointAt front).complete raw).Complete :=
    Standpoint.complete_of_normal (m.standpointAt_proper hfront) hraw
  have hrefuse : ¬(raw.location.authority.isSome ∧ raw.location.scheme = none) := fun h =>
    hok ⟨h.2, Option.isSome_iff_ne_none.mp h.1⟩
  have hnil := hcomplete.child_nil
  rw [onward, if_neg hrefuse]
  cases hl : raw.location.isStated with
  | true =>
    rw [Standpoint.complete_of_isStated hl] at hnil ⊢
    simp [hraw.absolute_of_stated hl, hnil]
  | false =>
    cases ha : raw.absolute with
    | true =>
      rw [Mount.complete_absolute hl ha] at hnil ⊢
      simp [hnil]
    | false =>
      rw [Mount.complete_relative hl ha] at hnil ⊢
      simp [Mount.place_parent?, Path.join, ha, hl, hnil]

variable {a : Atlas} {status : Status}

/-- A walk down directories to a link is sent on. -/
theorem Atlas.leg_met_last (ho : ∀ n ∈ front ++ [name], Ordinary n) (hc : a.Confirmed m front)
    (hs : a.lstat m (front ++ [name]) = .ok (some status)) (hk : status.kind = .link)
    (ht : status.target = some raw)
    (hl : a.registry.lookup (m.place (front ++ [name])) asked = .ok m) :
    a.leg asked true (m.place (front ++ [name])) =
      .ok (m, .met (m.place (front ++ [name])) raw []) := by
  rw [leg_of_confirmed (lookup_place hl [] asked) ho hc,
    advance_cons (fun n hn => ho n (by simp [hn])) (ho name (by simp)), hs]
  simp [bind, Except.bind, pure, Except.pure, Except.map, hk, ht]

end Targets

namespace Session

variable {s : Session} {site : Site} {arg : PathArg} {path target : Path} {r : Resolution}
variable {status : Status} {raw : Path}

/-- Walks from one link come to what walks from its target come to. -/
theorem outcome_trace_link {m : Mount} {front : List String} {name : String} {a : Atlas}
    {asked : Path} {left n : ℕ} (hfront : ∀ n ∈ front, Ordinary n) (hraw : raw.Normal)
    (hleg : a.leg asked true (m.place (front ++ [name])) =
      .ok (m, .met (m.place (front ++ [name])) raw []))
    (hq : qualifyTarget (m.place (front ++ [name])) raw = .ok target) (hn : left ≤ n) :
    (∃ e, (a.trace asked true left (m.place (front ++ [name]))).outcome = .error e ∧
        e.kind = .cyclicLink) ∨
      SameOutcome Eq (a.trace asked true left (m.place (front ++ [name]))).outcome
        (a.trace target true n target).outcome := by
  rw [qualifyTarget_place] at hq
  cases hq
  cases left with
  | zero => exact .inl ⟨_, by rw [Atlas.trace_of_met_zero hleg], rfl⟩
  | succ less =>
  by_cases hrefused : raw.location.scheme = none ∧ raw.location.authority ≠ none
  · obtain ⟨authority, hauthority⟩ := Option.ne_none_iff_exists'.mp hrefused.2
    have hloc : raw.location = ⟨none, some authority⟩ := by
      rw [← hrefused.1, ← hauthority]
    have hlookup : a.leg raw true raw = .error (.authorityWithoutScheme authority raw.text) := by
      unfold Atlas.leg Registry.lookup
      rw [hloc]
      rfl
    rw [Atlas.trace_of_met_refused hleg (Atlas.onward_refused _ hrefused),
      Standpoint.complete_of_isStated (by rw [hloc]; rfl), Atlas.trace_of_error hlookup]
    exact .inr (.error rfl)
  · rw [Atlas.trace_of_met hleg (Atlas.onward_last hfront hraw hrefused)]
    dsimp only
    generalize (m.standpointAt front).complete raw = next
    have halike := Atlas.trace_alike (a := a) asked next true less next
    cases hx : (a.trace asked true less next).outcome with
    | ok r =>
      rw [hx] at halike
      rw [Atlas.outcome_trace_mono rfl _ (show less ≤ n by omega)]
      · exact .inr halike
      · rintro e he
        rw [he] at halike
        cases halike
    | error e =>
      by_cases hcyclic : e.kind = .cyclicLink
      · exact .inl ⟨e, rfl, hcyclic⟩
      rw [hx] at halike
      rw [Atlas.outcome_trace_mono rfl _ (show less ≤ n by omega)]
      · exact .inr halike
      · rintro e' he hkind
        rw [he] at halike
        cases halike with
        | error hsame => exact hcyclic (hsame.trans hkind)

/-- Walks that follow links go on from where a path ends without following the last one. -/
theorem Resolves.outcome_follow (hr : s.Resolves site path false r) (hp : path.Complete) :
    ∃ left ≤ s.maxLinks, (s.trace site path true).outcome =
      ((s.atlas site).trace path true left r.path).outcome := by
  have hend := hr.ending hp.normal hp.absolute
  rcases htrace : s.trace site path false with ⟨hops, outcome⟩
  obtain rfl : outcome = .ok r := by rw [← hr, htrace]
  rw [trace_of_isStated hp.stated] at htrace
  have hkept : false = true → true = true ∨ ([] : List String) ≠ [] := by simp
  have hfollow := Atlas.outcome_trace_child (s.targetsNormal site) path hp.absolute
    (hp.normal.ordinary hp.absolute) (by simp) hkept htrace (Atlas.length_hops_le htrace)
  rw [hp.child_nil, hend.complete.child_nil] at hfollow
  exact ⟨_, Nat.sub_le _ _, by rw [trace_of_isStated hp.stated, hfollow]⟩

/-- Following a path whose end is a link other than a root comes to what following the reported
target comes to, unless there are too many links on the path. -/
theorem Resolves.follow_link (hr : s.Resolves site path false r) (hp : path.Complete)
    (hs : r.status = some status) (hk : status.kind = .link) (ht : status.target = some raw)
    (hroot : r.path.isRoot = false) (hq : qualifyTarget r.path raw = .ok target) :
    (∃ e, (s.trace site path true).outcome = .error e ∧ e.kind = .cyclicLink) ∨
      SameOutcome Eq (s.trace site path true).outcome (s.trace site target true).outcome := by
  have hend := hr.ending hp.normal hp.absolute
  obtain ⟨left, hleft, hfollow⟩ := hr.outcome_follow hp
  obtain ⟨hl, hc⟩ := hend.reported (hend.of_status hs).1
  have hpath := hend.path_eq
  have hne : r.path.segments ≠ [] := by
    intro hnil
    rw [hpath, hnil] at hroot
    cases hroot
  obtain ⟨front, name, hsplit⟩ := (List.eq_nil_or_concat' r.path.segments).resolve_left hne
  have ho := hend.ordinary
  rw [hsplit] at hl hc hpath ho
  rw [hs] at hl
  have hraw : raw.Normal := s.targetsNormal site _ _ _ _ hl hk ht
  have hfront : ∀ n ∈ front, Ordinary n := fun n hn => ho n (by simp [hn])
  have howner := Atlas.lookup_asked path hend.owner
  rw [hpath] at howner hq
  have hleg := Atlas.leg_met_last ho (by simpa using hc) hl hk ht howner
  have htarget : target.Complete := by
    rw [qualifyTarget_place] at hq
    cases hq
    exact Standpoint.complete_of_normal (r.mount.standpointAt_proper hfront) hraw
  rw [hfollow, trace_of_isStated htarget.stated, hpath]
  exact outcome_trace_link hfront hraw hleg hq hleft

/-- A path that ends at a root ends there also when links are followed: a walk takes a root on
trust. -/
theorem Resolves.follow_root (hr : s.Resolves site path false r) (hp : path.Complete)
    (hroot : r.path.isRoot = true) : s.Resolves site path true r := by
  obtain ⟨left, -, hfollow⟩ := hr.outcome_follow hp
  obtain ⟨m, hleg⟩ := Atlas.leg_of_resolve hr
  rw [Atlas.start, if_pos hp.stated] at hleg
  obtain ⟨hl, hwalk⟩ := Atlas.leg_eq_ok.mp hleg
  rw [Atlas.walk, if_pos hroot] at hwalk
  have hagain : (s.atlas site).leg path true r.path = .ok (m, .arrived r) :=
    Atlas.leg_eq_ok.mpr ⟨hl, by rw [Atlas.walk, if_pos hroot, hwalk]⟩
  rw [Resolves, hfollow, Atlas.trace_of_arrived hagain]

/-- A target is completed to a path that names its store. -/
theorem isStated_of_qualifyTarget {link : Path} (hl : link.location.isStated = true)
    (h : qualifyTarget link raw = .ok target) : target.location.isStated = true := by
  unfold qualifyTarget at h
  split at h
  · rename_i hstated
    cases h
    exact hstated
  split at h
  · split at h
    · rename_i dir hparent
      cases h
      have hdir : dir.location = link.location := by
        unfold Path.parent? at hparent
        split at hparent <;> cases hparent
        rfl
      unfold Path.join
      split
      · simp_all
      · rw [Path.child_location, hdir, hl]
    · cases h
  · cases h
    exact hl

/-- A link is reported with its target completed. -/
theorem located_link {stored : Status} (h : located stored path = .ok status)
    (hk : status.kind = .link) (ht : status.target = some target) :
    stored.kind = .link ∧ status.path = path ∧
      ∃ raw, stored.target = some raw ∧ qualifyTarget path raw = .ok target := by
  unfold located at h
  split at h
  · rename_i raw hkind hraw
    obtain ⟨found, hfound, h⟩ := bind_eq_ok.mp h
    cases h
    cases ht
    exact ⟨hkind, rfl, raw, hraw, hfound⟩
  · rename_i hother
    cases h
    exact absurd ht (hother target hk)

/-- **The reported target is the one that is followed**: what a link leads to, as far as the bound
allows, is what its reported target leads to.  Only for a link in place of a root this is left to
chance; it holds if what is reported of the link is found at the target. -/
theorem leadsTo_iff (hs : s.standpoint.Proper) (harg : ∀ p, arg.read = .ok p → p.Normal)
    {after : Site} (h : (s.linkStatus arg).eval site = (.ok status, after))
    (hk : status.kind = .link) (ht : status.target = some target) :
    s.LeadsTo site arg target ↔
      (status.path.isRoot = true → ((s.status (.path target)).eval site).1 = .ok status) := by
  obtain ⟨path, hqualified⟩ : ∃ path, s.qualified arg = .ok path := by
    rcases Action.eval_ofExcept_cases h with ⟨e, -, he, -⟩ | ⟨path, hpath, -⟩
    · cases he
    · exact ⟨path, hpath⟩
  have hp : path.Complete := by
    obtain ⟨p, hread, rfl⟩ := map_eq_ok.mp hqualified
    exact Standpoint.complete_of_normal hs (harg p hread)
  have hreported : ((s.linkStatus arg).eval site).1 = _ := eval_linkStatus_fst hqualified
  rw [h] at hreported
  obtain ⟨r, houtcome, hfound⟩ := bind_eq_ok.mp hreported.symm
  have hr : s.Resolves site path false r := houtcome
  cases hstored : r.status with
  | none => rw [hstored] at hfound; cases hfound
  | some stored =>
  rw [hstored] at hfound
  obtain ⟨hkind, hpath, raw, hraw, hq⟩ := located_link hfound hk ht
  have htarget : s.qualified (.path target) = .ok target :=
    congrArg Except.ok (Standpoint.complete_of_isStated
      (isStated_of_qualifyTarget (hr.ending hp.normal hp.absolute).complete.stated hq))
  rw [hpath]
  cases hroot : r.path.isRoot with
  | true =>
    have hstatus : ((s.status arg).eval site).1 = .ok status := by
      rw [eval_status_fst hqualified, Resolves.follow_root hr hp hroot]
      exact bind_eq_ok.mpr ⟨r, rfl, by rw [hstored]; exact hfound⟩
    refine ⟨fun hleads _ => hleads.found status hstatus, fun hsame => ?_⟩
    rw [← hstatus] at hsame
    exact leadsTo_of_sameOutcome (hsame rfl ▸ .of_refl (fun _ => rfl) _)
  | false =>
    refine iff_of_true ?_ (by simp)
    rcases Resolves.follow_link hr hp hstored hkind hraw hroot hq with ⟨e, he, hcyclic⟩ | hsame
    · exact leadsTo_of_cyclic (e := e) (by rw [eval_status_fst hqualified, he]; rfl) hcyclic
    · refine leadsTo_of_sameOutcome ?_
      rw [eval_status_fst hqualified, eval_status_fst htarget]
      exact reported_alike hsame

/-- The link to a directory leads where its reported target leads. -/
theorem leadsTo_iff_behind_link :
    let s := alone (.ofHost "h")
    let target : Path := { location := ⟨some "file", none⟩, segments := ["d"] }
    s.standpoint.Proper ∧ (∀ p, PathArg.read (.text "/l") = .ok p → p.Normal) ∧
    ∃ status after, (s.linkStatus (.text "/l")).eval hostWithLink = (.ok status, after) ∧
      status.kind = .link ∧ status.target = some target ∧
      (s.LeadsTo hostWithLink (.text "/l") target ↔ (status.path.isRoot = true →
        ((s.status (.path target)).eval hostWithLink).1 = .ok status)) ∧
      ((s.status (.text "/l")).eval hostWithLink).1.toOption.map (·.path) = some target := by
  intro s target
  have hs : s.standpoint.Proper := Capability.rootPath_complete _
  have harg : ∀ p, PathArg.read (.text "/l") = .ok p → p.Normal := PathArg.normal_of_text
  have hlink : ((s.linkStatus (.text "/l")).eval hostWithLink).1.toOption.map
      (fun status => (status.kind, status.target)) = some (.link, some target) := by
    decide +kernel
  cases heval : (s.linkStatus (.text "/l")).eval hostWithLink with
  | mk outcome after =>
  rw [heval] at hlink
  cases outcome with
  | error e => cases hlink
  | ok status =>
    have hboth : status.kind = .link ∧ status.target = some target := by
      simpa [Except.toOption] using hlink
    exact ⟨hs, harg, status, after, rfl, hboth.1, hboth.2,
      leadsTo_iff hs harg heval hboth.1 hboth.2, by decide +kernel⟩

/-- The root that is now a link is found under its own path, and nothing at its reported target. -/
theorem not_leadsTo_hostReplaced :
    let s := alone (.ofHost "h")
    let target : Path := { location := ⟨some "file", none⟩, segments := ["x"] }
    ∃ status after, (s.linkStatus (.text "/")).eval hostReplaced = (.ok status, after) ∧
      status.kind = .link ∧ status.target = some target ∧
      ¬s.LeadsTo hostReplaced (.text "/") target := by
  intro s target
  have hlink : ((s.linkStatus (.text "/")).eval hostReplaced).1.toOption.map
      (fun status => (status.kind, status.target)) = some (.link, some target) := by
    decide +kernel
  have hfound : ((s.status (.text "/")).eval hostReplaced).1.toOption.isSome = true := by
    decide +kernel
  have hmissing : ((s.status (.path target)).eval hostReplaced).1.toOption.isSome = false := by
    decide +kernel
  cases heval : (s.linkStatus (.text "/")).eval hostReplaced with
  | mk outcome after =>
  rw [heval] at hlink
  cases outcome with
  | error e => cases hlink
  | ok status =>
    have hboth : status.kind = .link ∧ status.target = some target := by
      simpa [Except.toOption] using hlink
    refine ⟨status, after, rfl, hboth.1, hboth.2, fun hleads => ?_⟩
    cases hpath : ((s.status (.text "/")).eval hostReplaced).1 with
    | error e => rw [hpath] at hfound; cases hfound
    | ok there =>
      rw [hleads.found there hpath] at hmissing
      cases hmissing

end Session

end MountSpace
