import MountSpace.Proofs.Resolve.Exploration

/-!
# Where paths end

Resolving ends at a path that has no link left to follow: directories lead down to it, or down to
the first name that is missing, and resolving it again changes nothing.  A walk takes the root of
a store on trust, so all this stands and falls with the root.

## Main definitions

* `OnTheWay` — the places between a root and the end of a path.
* `Resolution.Canonical` — what holds of an end, as far as the mounts and their entries go.
* `Resolution.RootSound` — what the root of the store has to be for it.

Main statement: `Atlas.canonical_of_resolve`.
-/

namespace MountSpace

/-- The names of a place on the way to `names`, from the root on and before the end. -/
def OnTheWay (front names : List String) : Prop := front <+: names ∧ front ≠ names

theorem OnTheWay.prefix_dropLast {front names : List String} (h : OnTheWay front names) :
    front <+: names.dropLast := by
  obtain ⟨hpre, hne⟩ := h
  rcases List.eq_nil_or_concat' names with rfl | ⟨init, last, rfl⟩
  · exact hpre
  · rcases List.prefix_concat_iff.mp hpre with rfl | hpre
    · exact absurd rfl hne
    · simpa using hpre

theorem OnTheWay.of_prefix_dropLast {front names : List String} (hf : front <+: names.dropLast)
    (hne : front ≠ []) : OnTheWay front names := by
  refine ⟨hf.trans (List.dropLast_prefix names), ?_⟩
  rintro rfl
  have hlen := hf.length_le
  have hpos := List.length_pos_of_ne_nil hne
  rw [List.length_dropLast] at hlen
  omega

theorem onTheWay_nil {names : List String} (h : names ≠ []) : OnTheWay [] names :=
  ⟨List.nil_prefix, fun hnil => h hnil.symm⟩

/-- The end of a path. -/
structure Resolution.Canonical (a : Atlas) (follow : Bool) (r : Resolution) : Prop where
  /-- The path starts at a root. -/
  absolute : r.path.absolute = true
  /-- The path names its store. -/
  located : r.path.location.isStated = true
  /-- The mount is the one that owns the path. -/
  owner : a.registry.lookup r.path r.path = .ok r.mount
  /-- Down to the first missing place there are directories on the way. -/
  directories : ∀ front, OnTheWay front r.path.segments →
    (∀ above, above <+: front → a.lstat r.mount above ≠ .ok none) → a.IsDirectory r.mount front
  /-- The parent is there exactly when nothing is missing on the way. -/
  parentExists_iff : r.parentExists = true ↔
    ∀ front, OnTheWay front r.path.segments → a.lstat r.mount front ≠ .ok none
  /-- Below a parent that is there, the status is what the mount reports. -/
  status_eq : r.parentExists = true → a.status r.mount r.path.localText = .ok r.status
  /-- Below a missing parent there is nothing. -/
  status_eq_none : r.parentExists = false → r.status = none
  /-- No link is left to follow. -/
  not_link : follow = true → ∀ status, r.status = some status → status.kind ≠ .link

/-- The root of the store bears out what a walk takes it for.  At the end of a path it is no link
that should have been followed; on the way it is a directory, or missing along with the parent. -/
def Resolution.RootSound (a : Atlas) (follow : Bool) (r : Resolution) : Prop :=
  if r.path.isRoot then follow = true → ∀ status, r.status = some status → status.kind ≠ .link
  else a.IsDirectory r.mount [] ∨ (a.lstat r.mount [] = .ok none ∧ r.parentExists = false)

namespace Atlas

variable {a : Atlas} {m : Mount} {done pending : List String} {name : String}
variable {path asked current dir : Path} {follow : Bool} {r : Resolution}

/-! ## The last walk -/

/-- How a walk arrives at its end: with directories all the way, or at a gap. -/
def Arrives (a : Atlas) (follow : Bool) (m : Mount) (names : List String) (r : Resolution) :
    Prop :=
  (r.parentExists = true ∧ a.lstat m names = .ok r.status ∧ a.Confirmed m names.dropLast ∧
    (follow = true → names ≠ [] → ∀ status, r.status = some status → status.kind ≠ .link)) ∨
  (r.parentExists = false ∧ r.status = none ∧
    ∃ front name, OnTheWay (front ++ [name]) names ∧ a.Confirmed m front ∧
      a.lstat m (front ++ [name]) = .ok none)

theorem arrives_of_advance (ho : ∀ n ∈ done ++ pending, Ordinary n) (hc : a.Confirmed m done)
    (hne : pending ≠ [])
    (h : a.advance m path asked follow (m.place done) pending = .ok (.arrived r)) :
    r.path = path ∧ r.mount = m ∧ a.Arrives follow m (done ++ pending) r := by
  induction pending generalizing done with
  | nil => exact absurd rfl hne
  | cons name rest ih =>
    have hfront : ∀ n ∈ done, Ordinary n := fun n hn => ho n (by simp [hn])
    rw [advance_cons hfront (ho name (by simp))] at h
    cases hs : a.lstat m (done ++ [name]) with
    | error e => rw [hs] at h; cases h
    | ok found =>
    rw [hs] at h
    simp only [bind, Except.bind, pure, Except.pure, throw, throwThe, MonadExceptOf.throw] at h
    cases found with
    | none =>
      cases h
      refine ⟨rfl, rfl, ?_⟩
      cases rest with
      | nil => exact .inl ⟨rfl, hs, by simpa using hc, by simp⟩
      | cons next rest => exact .inr ⟨rfl, rfl, done, name, ⟨by simp, by simp⟩, hc, hs⟩
    | some status =>
    by_cases hlink : status.kind = .link ∧ (follow = true ∨ rest ≠ [])
    · simp only [hlink, true_and, if_true] at h
      split at h <;> cases h
    simp only [if_neg hlink] at h
    by_cases hr : rest = []
    · subst hr
      rw [if_pos rfl] at h
      cases h
      refine ⟨rfl, rfl, .inl ⟨rfl, hs, by simpa using hc, ?_⟩⟩
      intro hf _ status' hs' hk
      obtain rfl : status = status' := by simpa using hs'
      exact hlink ⟨hk, .inl hf⟩
    rw [if_neg hr] at h
    by_cases hk : status.kind = .file
    · rw [if_pos hk] at h; cases h
    rw [if_neg hk] at h
    have hd : a.IsDirectory m (done ++ [name]) := by
      refine ⟨status, hs, ?_⟩
      cases hkind : status.kind <;> simp_all
    have key := ih (by simpa using ho) (hc.concat hd) hr h
    simpa using key

/-- A walk that arrives does not depend on the path a caller began with. -/
theorem advance_asked (other : Path)
    (h : a.advance m path asked follow dir pending = .ok (.arrived r)) :
    a.advance m path other follow dir pending = .ok (.arrived r) := by
  induction pending generalizing dir with
  | nil => exact h
  | cons name rest ih =>
    unfold advance at h ⊢
    obtain ⟨found, hs, h⟩ := bind_eq_ok.mp h
    refine bind_eq_ok.mpr ⟨found, hs, ?_⟩
    cases found with
    | none => exact h
    | some status =>
    dsimp only at h ⊢
    split at h
    · rename_i hlink
      rw [if_pos hlink]
      exact h
    rename_i hlink
    rw [if_neg hlink]
    split at h
    · rename_i hr
      rw [if_pos hr]
      exact h
    rename_i hr
    rw [if_neg hr]
    split at h
    · cases h
    rename_i hk
    rw [if_neg hk]
    exact ih h

/-- A walk arrives at the path that is walked. -/
theorem path_of_advance (h : a.advance m path asked follow dir pending = .ok (.arrived r)) :
    r.path = path := by
  induction pending generalizing dir with
  | nil => cases h; rfl
  | cons name rest ih =>
    unfold advance at h
    obtain ⟨found, -, h⟩ := bind_eq_ok.mp h
    cases found with
    | none => cases h; rfl
    | some status =>
    dsimp only at h
    split at h
    · split at h <;> cases h
    split at h
    · cases h; rfl
    split at h
    · cases h
    exact ih h

theorem arrives_of_leg (ho : ∀ n ∈ pending, Ordinary n)
    (h : a.leg asked follow (m.place pending) = .ok (m, .arrived r)) :
    r.path = m.place pending ∧ r.mount = m ∧ a.Arrives follow m pending r := by
  obtain ⟨-, hw⟩ := leg_eq_ok.mp h
  by_cases hne : pending = []
  · subst hne
    rw [walk_place_nil] at hw
    obtain ⟨status, hs, hend⟩ := map_eq_ok.mp hw
    cases hend
    exact ⟨rfl, rfl, .inl ⟨rfl, hs, confirmed_nil a m, fun _ hne => absurd rfl hne⟩⟩
  · rw [walk_place hne] at hw
    simpa using arrives_of_advance (by simpa using ho) (confirmed_nil a m) hne hw

theorem leg_asked (other : Path) (h : a.leg asked follow current = .ok (m, .arrived r)) :
    a.leg other follow current = .ok (m, .arrived r) := by
  obtain ⟨hl, hw⟩ := leg_eq_ok.mp h
  refine leg_eq_ok.mpr ⟨lookup_asked other hl, ?_⟩
  unfold walk at hw ⊢
  split at hw
  · rename_i hroot
    rw [if_pos hroot]
    exact hw
  · rename_i hroot
    rw [if_neg hroot]
    exact advance_asked other hw

theorem path_of_leg (h : a.leg asked follow current = .ok (m, .arrived r)) : r.path = current := by
  obtain ⟨-, hw⟩ := leg_eq_ok.mp h
  unfold walk at hw
  split at hw
  · obtain ⟨status, -, hw⟩ := bind_eq_ok.mp hw
    cases hw
    rfl
  · exact path_of_advance hw

/-- Where a walk arrives, below a root that is a directory, is a canonical end. -/
theorem Arrives.canonical (h : a.Arrives follow m pending r) (hpath : r.path = m.place pending)
    (hmount : r.mount = m) (hl : a.registry.lookup (m.place pending) asked = .ok m)
    (hne : pending ≠ []) (hroot : a.IsDirectory m []) : r.Canonical a follow := by
  obtain ⟨p, mount, status, parentExists⟩ := r
  obtain rfl : p = m.place pending := hpath
  obtain rfl : mount = m := hmount
  have hconf : ∀ names front, a.Confirmed mount names → front <+: names →
      a.IsDirectory mount front := by
    intro names front hc hf
    by_cases hnil : front = []
    · rwa [hnil]
    · exact hc front hf hnil
  rcases h with ⟨hp, hs, hc, hnl⟩ | ⟨hp, hs, front, name, hway, hc, hmissing⟩
  · have hdirs : ∀ front, OnTheWay front pending → a.IsDirectory mount front :=
      fun front hf => hconf _ front hc hf.prefix_dropLast
    refine ⟨rfl, rfl, lookup_asked _ hl, fun front hf _ => hdirs front hf, ?_, fun _ => hs,
      fun hfalse => ?_, fun hf => hnl hf hne⟩
    · refine iff_of_true hp fun front hf hnone => ?_
      obtain ⟨found, hfound, -⟩ := hdirs front hf
      rw [hfound] at hnone
      cases hnone
    · rw [show parentExists = true from hp] at hfalse
      cases hfalse
  · refine ⟨rfl, rfl, lookup_asked _ hl, ?_, ?_, fun htrue => ?_, fun _ => hs, ?_⟩
    · -- What is on the way lies above the gap or has the gap above it.
      intro above habove hthere
      rcases List.prefix_or_prefix_of_prefix habove.1 hway.1 with hle | hle
      · rcases List.prefix_concat_iff.mp hle with rfl | hle
        · exact absurd hmissing (hthere _ (List.prefix_refl _))
        · exact hconf _ above hc hle
      · exact absurd hmissing (hthere _ hle)
    · refine iff_of_false (by simp [show parentExists = false from hp]) fun hthere => ?_
      exact hthere _ hway hmissing
    · rw [show parentExists = false from hp] at htrue
      cases htrue
    · rintro - found hfound
      rw [show status = none from hs] at hfound
      cases hfound

/-- Where a walk arrives is a canonical end exactly when the root bears it out. -/
theorem Arrives.canonical_iff (h : a.Arrives follow m pending r) (hpath : r.path = m.place pending)
    (hmount : r.mount = m) (hl : a.registry.lookup (m.place pending) asked = .ok m) :
    r.Canonical a follow ↔ r.RootSound a follow := by
  have hsegments : r.path.segments = pending := by rw [hpath]; rfl
  have hisRoot : r.path.isRoot = pending.isEmpty := by rw [hpath]; rfl
  have howner : a.registry.lookup r.path r.path = .ok r.mount := by
    rw [hpath, hmount]
    exact lookup_asked _ hl
  unfold Resolution.RootSound
  rw [hisRoot]
  by_cases hnil : pending = []
  · subst hnil
    rw [if_pos List.isEmpty_nil]
    refine ⟨Resolution.Canonical.not_link, fun hlink => ?_⟩
    have hnone : ∀ front, ¬OnTheWay front r.path.segments := by
      rw [hsegments]
      exact fun front hf => hf.2 (List.prefix_nil.mp hf.1)
    rcases h with ⟨hp, hs, -, -⟩ | ⟨-, -, front, name, hway, -⟩
    · refine ⟨by rw [hpath]; rfl, by rw [hpath]; rfl, howner, fun f hf => absurd hf (hnone f),
        iff_of_true hp fun f hf => absurd hf (hnone f), fun _ => ?_, fun hfalse => ?_, hlink⟩
      · rw [hmount, hpath]
        exact hs
      · rw [hp] at hfalse
        cases hfalse
    · simpa using hway.1
  · have hnil' : ¬pending.isEmpty = true := by simpa using hnil
    rw [if_neg hnil']
    have hway : OnTheWay [] r.path.segments := by
      rw [hsegments]
      exact onTheWay_nil hnil
    constructor
    · intro hcanon
      by_cases hmissing : a.lstat r.mount [] = .ok none
      · refine .inr ⟨hmissing, ?_⟩
        by_contra htrue
        exact hcanon.parentExists_iff.mp (by simpa using htrue) [] hway hmissing
      · refine .inl (hcanon.directories [] hway fun above habove => ?_)
        rwa [List.prefix_nil.mp habove]
    · rintro (hroot | ⟨hmissing, hfalse⟩)
      · exact h.canonical hpath hmount hl hnil (hmount ▸ hroot)
      · have hstatus : r.status = none := by
          rcases h with ⟨htrue, -⟩ | ⟨-, hs, -⟩
          · rw [htrue] at hfalse
            cases hfalse
          · exact hs
        refine ⟨by rw [hpath]; rfl, by rw [hpath]; rfl, howner, fun f _ hthere => ?_,
          iff_of_false (by simp [hfalse]) fun hthere => hthere [] hway hmissing,
          fun htrue => ?_, fun _ => hstatus, fun _ found hfound => ?_⟩
        · exact absurd hmissing (hthere [] List.nil_prefix)
        · rw [htrue] at hfalse
          cases hfalse
        · rw [hstatus] at hfound
          cases hfound

/-! ## The walks before the last -/

/-- A link that a walk meets is an entry of the mount, and its directory lies on the path. -/
theorem met_of_advance {link target : Path} {rest : List String}
    (ho : ∀ n ∈ done ++ pending, Ordinary n)
    (h : a.advance m path asked follow (m.place done) pending = .ok (.met link target rest)) :
    ∃ front name status, done ++ pending = front ++ name :: rest ∧
      link = m.place (front ++ [name]) ∧ a.lstat m (front ++ [name]) = .ok (some status) ∧
      status.kind = .link ∧ status.target = some target := by
  induction pending generalizing done with
  | nil => cases h
  | cons next more ih =>
    have hfront : ∀ n ∈ done, Ordinary n := fun n hn => ho n (by simp [hn])
    rw [advance_cons hfront (ho next (by simp))] at h
    cases hs : a.lstat m (done ++ [next]) with
    | error e => rw [hs] at h; cases h
    | ok found =>
    rw [hs] at h
    simp only [bind, Except.bind, pure, Except.pure, throw, throwThe, MonadExceptOf.throw] at h
    cases found with
    | none => cases h
    | some status =>
    dsimp only at h
    split at h
    · rename_i hlink
      split at h
      · rename_i found ht
        cases h
        exact ⟨done, next, status, rfl, rfl, hs, hlink.1, ht⟩
      · cases h
    · split at h
      · cases h
      split at h
      · cases h
      obtain ⟨front, name, found, hsplit, key⟩ := ih (by simpa using ho) h
      exact ⟨front, name, found, by simpa using hsplit, key⟩

/-- The path of a walk that meets a link goes below a root. -/
theorem segments_ne_nil_of_met {link target : Path} {rest : List String}
    (habs : current.absolute = true)
    (h : a.leg asked follow current = .ok (m, .met link target rest)) :
    current.segments ≠ [] := by
  intro hnil
  obtain ⟨-, hwalk⟩ := leg_eq_ok.mp h
  have hroot : current.isRoot = true := by simp [Path.isRoot, habs, hnil]
  rw [walk, if_pos hroot] at hwalk
  obtain ⟨status, -, hwalk⟩ := bind_eq_ok.mp hwalk
  cases hwalk

/-- The link and the names of a walk that is sent on. -/
theorem met_of_leg {link target : Path} {rest : List String} (habs : current.absolute = true)
    (ho : ∀ n ∈ current.segments, Ordinary n)
    (h : a.leg asked follow current = .ok (m, .met link target rest)) :
    ∃ front name status, current.segments = front ++ name :: rest ∧
      link = m.place (front ++ [name]) ∧ a.lstat m (front ++ [name]) = .ok (some status) ∧
      status.kind = .link ∧ status.target = some target := by
  have hne := segments_ne_nil_of_met habs h
  obtain ⟨hl, hwalk⟩ := leg_eq_ok.mp h
  rw [m.eq_place (Registry.location_of_lookup hl).symm habs, walk_place hne] at hwalk
  have ho' : ∀ n ∈ [] ++ current.segments, Ordinary n := by simpa using ho
  simpa using met_of_advance ho' hwalk

/-- A link sends the walk to a path from a root with ordinary names. -/
theorem ordinary_of_onward {front rest : List String} {target next : Path}
    (hf : ∀ n ∈ front, Ordinary n) (hr : ∀ n ∈ rest, Ordinary n) (ht : target.Normal)
    (h : onward m (m.place (front ++ [name])) target rest asked = .ok next) :
    next.absolute = true ∧ ∀ n ∈ next.segments, Ordinary n := by
  by_cases hrefused : target.location.scheme = none ∧ target.location.authority ≠ none
  · rw [onward_refused _ hrefused] at h
    cases h
  cases habs : target.absolute with
  | false =>
    rw [onward_relative hf hr ht habs] at h
    cases h
    refine ⟨rfl, fun n hn => ?_⟩
    simp only [Mount.place_segments, List.mem_append] at hn
    rcases hn with hn | hn | hn
    · exact hf n (List.mem_of_mem_take hn)
    · exact ht.afterDots_ordinary n hn
    · exact hr n hn
  | true =>
    obtain ⟨next', hnext, hna, hns, -⟩ :=
      onward_absolute (m := m) (m.place (front ++ [name])) hr ht habs hrefused
    rw [hnext] at h
    cases h
    refine ⟨hna, fun n hn => ?_⟩
    rw [hns] at hn
    exact (List.mem_append.mp hn).elim (ht.ordinary habs n) (hr n)

/-- Where a walk is sent on, the names stay ordinary. -/
theorem ordinary_of_met (ha : a.TargetsNormal) {link target next : Path} {rest : List String}
    (habs : current.absolute = true) (ho : ∀ n ∈ current.segments, Ordinary n)
    (hleg : a.leg asked follow current = .ok (m, .met link target rest))
    (hnext : onward m link target rest asked = .ok next) :
    next.absolute = true ∧ ∀ n ∈ next.segments, Ordinary n := by
  obtain ⟨front, name, status, hsplit, rfl, hs, hk, ht⟩ := met_of_leg habs ho hleg
  rw [hsplit] at ho
  exact ordinary_of_onward (fun n hn => ho n (by simp [hn])) (fun n hn => ho n (by simp [hn]))
    (ha _ _ _ _ hs hk ht) hnext

/-- Walks that come to an end come to it in a last walk, which follows no link. -/
theorem leg_of_trace (ha : a.TargetsNormal) {bound : ℕ} {current : Path}
    (habs : current.absolute = true) (ho : ∀ n ∈ current.segments, Ordinary n)
    (h : (a.trace asked follow bound current).outcome = .ok r) :
    ∃ m names, (∀ n ∈ names, Ordinary n) ∧ a.registry.lookup (m.place names) asked = .ok m ∧
      a.leg asked follow (m.place names) = .ok (m, .arrived r) := by
  induction bound using Nat.strong_induction_on generalizing current with
  | _ bound ih =>
  rcases trace_cases h with ⟨m, hleg⟩ | ⟨less, m, link, target, rest, next, rfl, hleg, hnext, h⟩
  · have hl := (leg_eq_ok.mp hleg).1
    have hplace := m.eq_place (Registry.location_of_lookup hl).symm habs
    exact ⟨m, current.segments, ho, by rwa [← hplace], by rwa [← hplace]⟩
  · obtain ⟨hna, hno⟩ := ordinary_of_met ha habs ho hleg hnext
    exact ih less (Nat.lt_succ_self less) hna hno h

/-- Resolving ends at a place of a mount with ordinary names, where a last walk arrives. -/
theorem arrives_of_resolve (ha : a.TargetsNormal) {at_ : Standpoint} {bound : ℕ}
    (hp : path.Normal) (habs : path.absolute = true)
    (h : (a.resolve at_ bound path follow).outcome = .ok r) :
    ∃ names asked, (∀ n ∈ names, Ordinary n) ∧ r.path = r.mount.place names ∧
      a.registry.lookup (r.mount.place names) asked = .ok r.mount ∧
      a.leg asked follow (r.mount.place names) = .ok (r.mount, .arrived r) ∧
      a.Arrives follow r.mount names r := by
  have ho : ∀ n ∈ (start at_ path).segments, Ordinary n := by simpa using hp.ordinary habs
  obtain ⟨m, names, hno, hl, hleg⟩ := leg_of_trace ha (by simpa) ho h
  obtain ⟨hpath, rfl, harrives⟩ := arrives_of_leg hno hleg
  exact ⟨names, _, hno, hpath, hl, hleg, harrives⟩

/-- The last of all walks arrives at the path it starts from. -/
theorem leg_of_resolve {at_ : Standpoint} {bound : ℕ}
    (h : (a.resolve at_ bound path follow).outcome = .ok r) :
    ∃ m, a.leg (start at_ path) follow r.path = .ok (m, .arrived r) := by
  have hlast : ∀ current, (a.trace (start at_ path) follow bound current).outcome = .ok r →
      ∃ m, a.leg (start at_ path) follow r.path = .ok (m, .arrived r) := by
    clear h
    induction bound with
    | zero =>
      intro current h
      rcases trace_cases h with ⟨m, hleg⟩ | ⟨less, _, _, _, _, _, hless, -⟩
      · exact ⟨m, (path_of_leg hleg).symm ▸ hleg⟩
      · omega
    | succ bound ih =>
      intro current h
      rcases trace_cases h with ⟨m, hleg⟩ | ⟨less, _, _, _, _, next, hless, -, -, h⟩
      · exact ⟨m, (path_of_leg hleg).symm ▸ hleg⟩
      · obtain rfl : bound = less := by omega
        exact ih next h
  exact hlast _ h

/-- The end of a path lies in a store that it names. -/
theorem isStated_of_resolve {at_ : Standpoint} {bound : ℕ}
    (h : (a.resolve at_ bound path follow).outcome = .ok r) :
    r.path.location.isStated = true := by
  obtain ⟨m, hleg⟩ := leg_of_resolve h
  rw [← Registry.location_of_lookup (leg_eq_ok.mp hleg).1]
  rfl

/-- Whatever path was asked for, resolving its end again meets no link and ends there. -/
theorem resolve_again {at_ : Standpoint} {bound : ℕ}
    (h : (a.resolve at_ bound path follow).outcome = .ok r) (again : Standpoint) (more : ℕ) :
    a.resolve again more r.path follow = ⟨[], .ok r⟩ := by
  obtain ⟨m, hleg⟩ := leg_of_resolve h
  have hstart : start again r.path = r.path := by
    rw [start, if_pos (isStated_of_resolve h)]
  rw [resolve, hstart]
  exact trace_of_arrived (leg_asked _ hleg)

/-- **Resolutions are canonical.**  Resolving ends at a canonical end exactly when the root of the
store bears out what the walk took it for.  In any case, resolving the end again, under any bound
and from any standpoint, meets no link and ends there. -/
theorem canonical_of_resolve (a : Atlas) (ha : a.TargetsNormal) (at_ : Standpoint) (bound : ℕ)
    (path : Path) (hp : path.Normal) (habs : path.absolute = true) (follow : Bool)
    (r : Resolution) (h : (a.resolve at_ bound path follow).outcome = .ok r) :
    (r.Canonical a follow ↔ r.RootSound a follow) ∧
      ∀ (again : Standpoint) (bound : ℕ), a.resolve again bound r.path follow = ⟨[], .ok r⟩ := by
  obtain ⟨names, asked, hno, hpath, hl, hleg, harrives⟩ := arrives_of_resolve ha hp habs h
  exact ⟨harrives.canonical_iff hpath rfl hl, fun again bound => resolve_again h again bound⟩

end Atlas

end MountSpace
