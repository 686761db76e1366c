import MountSpace.Proofs.Resolve.Names
import MountSpace.Proofs.Session.Joint

/-!
# Paths in two stores that keep one catalogue

Two sessions, each with a single mount, see the same when the mounts have one capability and keep
one catalogue.  Every path is explored in the one as in the other: the same directories are found on
the way, the same links are met, and it ends at the same place.

## Main definitions

* `Session.Counterparts` — two sessions that differ in their single mounts alone.
* `Catalogue.Ends` — how a path ends in both, and what the catalogue says of its end.

Main statements: `Session.Counterparts.explore`, `Session.Counterparts.joint_resolve`,
`Session.Counterparts.joint_require`.
-/

namespace MountSpace

open MountSpace.Path

variable {mx my : Mount} {c : Catalogue} {names confirmed pending : List String} {st : Status}
variable {node : Node} {follow : Bool} {E : Site → Prop}

/-! ## What a catalogue reports -/

theorem Catalogue.none_of_status (h : c.status names = .ok none) : c.node? names = none := by
  obtain ⟨p, -, h⟩ := bind_eq_ok.mp h
  cases hnode : c.node? names with
  | none => rfl
  | some node =>
    rw [hnode] at h
    obtain ⟨st, -, hst⟩ := bind_eq_ok.mp h
    cases hst

theorem Catalogue.node_of_status (h : c.status names = .ok (some st)) :
    ∃ node, c.node? names = some node ∧ node.told ⟨{}, names, true⟩ = .ok st := by
  obtain ⟨p, hp, h⟩ := bind_eq_ok.mp h
  cases hnode : c.node? names with
  | none =>
    rw [hnode] at h
    cases h
  | some node =>
    rw [hnode] at h
    obtain ⟨st', htold, hst⟩ := bind_eq_ok.mp h
    cases hst
    rw [(c.storable names (by simp [hnode])).read] at hp
    cases hp
    exact ⟨node, rfl, htold⟩

/-- The kind that is reported is the kind of the node. -/
theorem Node.told_cases {p : Path} (h : node.told p = .ok st) :
    (∃ content, node = .file content ∧ st.kind = .file) ∨
      (node = .directory ∧ st.kind = .directory) ∨
      ∃ text target, node = .link text ∧ st.kind = .link ∧ Path.read text = .ok target ∧
        st.target = some target := by
  cases node with
  | file content =>
    cases h
    exact .inl ⟨content, rfl, rfl⟩
  | directory =>
    cases h
    exact .inr (.inl ⟨rfl, rfl⟩)
  | link text =>
    obtain ⟨target, htarget, h⟩ := bind_eq_ok.mp h
    cases h
    exact .inr (.inr ⟨text, target, rfl, rfl, htarget, rfl⟩)

theorem Node.kind_eq_directory_iff {p : Path} (h : node.told p = .ok st) :
    st.kind = .directory ↔ node = .directory := by
  rcases Node.told_cases h with ⟨content, rfl, hk⟩ | ⟨rfl, hk⟩ | ⟨text, target, rfl, hk, -⟩ <;>
    simp [hk]

theorem Node.kind_eq_link_iff {p : Path} (h : node.told p = .ok st) :
    st.kind = .link ↔ ∃ text, node = .link text := by
  rcases Node.told_cases h with ⟨content, rfl, hk⟩ | ⟨rfl, hk⟩ | ⟨text, target, rfl, hk, -⟩ <;>
    simp [hk]

/-! ## Names on the way -/

/-- The names of a target from a root are neat. -/
theorem neat_segments {target : Path} (h : target.Normal) (habs : target.absolute = true)
    (hn : target.Among Tame) : Neat target.segments := fun n hmem =>
  ⟨h.ordinary habs n hmem, hn n hmem⟩

/-- The names of a target after its double dots are neat. -/
theorem neat_afterDots {target : Path} (h : target.Normal) (hn : target.Among Tame) :
    Neat target.afterDots := fun n hmem => by
  refine ⟨h.afterDots_ordinary n hmem, hn n ?_⟩
  rw [target.segments_eq_dots]
  exact List.mem_append_right _ hmem

/-! ## Ends -/

/-- How a path ends in the one mount and in the other, and what the catalogue says of the end. -/
structure Catalogue.Ends (c : Catalogue) (follow : Bool) (mx my : Mount) (r r' : Resolution) :
    Prop where
  left : r.mount = mx
  right : r'.mount = my
  path : r'.path = r.path
  parentExists : r'.parentExists = r.parentExists
  status : r'.status.map Status.untimed = r.status.map Status.untimed
  place : r.path = mx.place r.path.segments
  neat : Neat r.path.segments
  /-- The parent is there exactly when the catalogue keeps it. -/
  parent : r.parentExists = true ↔ c.node? r.path.segments.dropLast = some .directory
  /-- On the way there are directories, or nothing. -/
  way : ∀ front, front <+: r.path.segments.dropLast →
    c.node? front = some .directory ∨ c.node? front = none
  missing : r.status = none → c.node? r.path.segments = none
  found : ∀ st, r.status = some st → ∃ node, c.node? r.path.segments = some node ∧
    node.told ⟨{}, r.path.segments, true⟩ = .ok st.untimed
  /-- A link in the last place is not left to follow. -/
  settled : follow = true → ∀ text, c.node? r.path.segments ≠ some (.link text)

namespace Catalogue.Ends

variable {r r' : Resolution} (h : c.Ends follow mx my r r')

include h

theorem localText_eq : r.path.localText = rootText r.path.segments := by
  rw [h.place]
  rfl

/-- The same is found at both ends, but for times. -/
theorem status_cases : (r.status = none ∧ r'.status = none) ∨
    ∃ st st', r.status = some st ∧ r'.status = some st' ∧ st'.untimed = st.untimed := by
  have hstatus := h.status
  cases hr : r.status with
  | none =>
    rw [hr, Option.map_none, Option.map_eq_none_iff] at hstatus
    exact .inl ⟨rfl, hstatus⟩
  | some st =>
    rw [hr, Option.map_some, Option.map_eq_some_iff] at hstatus
    obtain ⟨st', hr', hst⟩ := hstatus
    exact .inr ⟨st, st', rfl, hr', hst⟩

/-- What is found has a parent. -/
theorem parent_of_some (hs : r.status = some st) : r.parentExists = true := by
  obtain ⟨node, hnode, -⟩ := h.found st hs
  exact h.parent.mpr (c.directory_of_dropLast (by simp [hnode]))

end Catalogue.Ends

/-! ## Two sessions -/

/-- Two sessions that differ in their single mounts alone, and these have one capability.  The
working directory has a tame path. -/
structure Session.Counterparts (s t : Session) (mx my : Mount) : Prop where
  left : s.registry.mounts = [mx]
  right : t.registry.mounts = [my]
  capability : mx.capability = my.capability
  maxLinks : t.maxLinks = s.maxLinks
  standpoint : t.standpoint = s.standpoint
  proper : s.standpoint.Proper
  tame : s.standpoint.workingDirectory.Among Tame

namespace Session.Counterparts

variable {s t : Session} {x y : Site} {path asked : Path} {bound : ℕ}
variable (h : s.Counterparts t mx my)

include h

theorem location : my.location = mx.location := congrArg Capability.location h.capability.symm

theorem place (names : List String) : my.place names = mx.place names := by
  rw [Mount.place, Mount.place, h.location]

theorem refl_left : s.Counterparts s mx mx := ⟨h.left, h.left, rfl, rfl, rfl, h.proper, h.tame⟩

theorem qualified (arg : PathArg) : t.qualified arg = s.qualified arg := by
  rw [Session.qualified, Session.qualified, h.standpoint]

/-- A path has an owner in both sessions, or in neither. -/
theorem lookup (p asked : Path) : SameOutcome (fun m m' => m = mx ∧ m' = my)
    (s.registry.lookup p asked) (t.registry.lookup p asked) := by
  have hat : ∀ l, (s.registry.at? l = some mx ∧ t.registry.at? l = some my) ∨
      (s.registry.at? l = none ∧ t.registry.at? l = none) := by
    intro l
    rw [Registry.at?, Registry.at?, h.left, h.right]
    by_cases hl : mx.location = l
    · exact .inl ⟨by simp [hl], by simp [h.location, hl]⟩
    · exact .inr ⟨by simp [hl], by simp [h.location, hl]⟩
  have hany : ∀ scheme, s.registry.mounts.any (·.location.scheme == some scheme) =
      t.registry.mounts.any (·.location.scheme == some scheme) := by
    intro scheme
    rw [h.left, h.right]
    simp [h.location]
  unfold Registry.lookup
  split
  · exact .error rfl
  · exact .error rfl
  · rename_i scheme _
    rcases hat ⟨some scheme, none⟩ with ⟨hl, hr⟩ | ⟨hl, hr⟩ <;> rw [hl, hr]
    · exact .ok ⟨rfl, rfl⟩
    · dsimp only
      rw [hany scheme]
      split <;> exact .error rfl
  · rename_i scheme authority _
    rcases hat ⟨some scheme, some authority⟩ with ⟨hl, hr⟩ | ⟨hl, hr⟩ <;> rw [hl, hr]
    · exact .ok ⟨rfl, rfl⟩
    · exact .error rfl

/-- A walk ends at a name that is not there. -/
theorem ends_missing {name : String} {rest : List String} (hn : Neat (confirmed ++ name :: rest))
    (hc : c.node? confirmed = some .directory) (hnone : c.node? (confirmed ++ [name]) = none) :
    c.Ends follow mx my ⟨mx.place (confirmed ++ name :: rest), mx, none, rest.isEmpty⟩
      ⟨my.place (confirmed ++ name :: rest), my, none, rest.isEmpty⟩ := by
  have hbelow : ∀ more, c.node? (confirmed ++ name :: more) = none := fun more => by
    simpa using c.none_of_append hnone more
  refine
    { left := rfl, right := rfl, path := h.place _, parentExists := rfl, status := rfl
      place := rfl, neat := hn, parent := ?_, way := fun front hf => ?_
      missing := fun _ => hbelow rest, found := fun st hst => by cases hst
      settled := fun _ text htext => by cases (hbelow rest).symm.trans htext }
  · dsimp only [Mount.place_segments]
    rcases List.eq_nil_or_concat' rest with rfl | ⟨init, last, rfl⟩
    · exact iff_of_true rfl (by simpa using hc)
    · refine iff_of_false (by simp) ?_
      rw [← List.cons_append, ← List.append_assoc, List.dropLast_concat, hbelow init]
      exact (Option.some_ne_none _).symm
  · have hpre : front <+: confirmed ++ name :: rest := hf.trans (List.dropLast_prefix _)
    rcases List.prefix_or_prefix_of_prefix hpre (List.prefix_append _ _) with hin | ⟨more, rfl⟩
    · exact .inl (c.directory_of_prefix hc hin)
    · cases more with
      | nil => exact .inl (by simpa using hc)
      | cons first more =>
        rw [List.prefix_append_right_inj, List.cons_prefix_cons] at hpre
        rw [hpre.1]
        exact .inr (hbelow more)

/-- A walk ends at its last name, if no link is there that is to be followed. -/
theorem ends_found {st' : Status} (hn : Neat names) (hnode : c.node? names = some node)
    (htold : node.told ⟨{}, names, true⟩ = .ok st.untimed) (hst : st'.untimed = st.untimed)
    (hstop : follow = true → st.kind ≠ .link) :
    c.Ends follow mx my ⟨mx.place names, mx, some st, true⟩
      ⟨my.place names, my, some st', true⟩ := by
  have hdir := c.directory_of_dropLast (by simp [hnode] : c.node? names ≠ none)
  refine
    { left := rfl, right := rfl, path := h.place _, parentExists := rfl
      status := congrArg some hst, place := rfl, neat := hn, parent := iff_of_true rfl hdir
      way := fun front hf => .inl (c.directory_of_prefix hdir hf)
      missing := fun hnone => by cases hnone
      found := fun found hfound => ?_
      settled := fun hfollow text htext => hstop hfollow ?_ }
  · cases hfound
    exact ⟨node, hnode, htold⟩
  · exact (Node.kind_eq_link_iff htold).mpr ⟨text, Option.some.inj (hnode.symm.trans htext)⟩

variable (hx : mx.Shows x c) (hy : my.Shows y c)

include hx hy

omit h in
/-- Both mounts report what the catalogue says. -/
theorem lstat (hn : Neat names) (hdir : c.node? names.dropLast = some .directory) :
    SameOutcome (fun found found' => found'.map Status.untimed = found.map Status.untimed ∧
        c.status names = .ok (found.map Status.untimed))
      ((s.atlas x).lstat mx names) ((t.atlas y).lstat my names) := by
  have hleft : Option.map Status.untimed <$> (s.atlas x).lstat mx names = c.status names :=
    hx.statusIn hn hdir
  have hright : Option.map Status.untimed <$> (t.atlas y).lstat my names = c.status names :=
    hy.statusIn hn hdir
  refine (SameOutcome.of_map_eq (hleft.trans hright.symm)).mono_of_ok ?_
  intro found found' hfound hsame
  rw [hfound] at hleft
  exact ⟨hsame.symm, hleft.symm⟩

/-- A walk that comes to directories all the way ends at the last of them. -/
theorem ends_confirmed (hn : Neat confirmed) (hc : c.node? confirmed = some .directory) :
    SameOutcome (c.Ends follow mx my)
      ((s.atlas x).explore asked follow bound mx confirmed [])
      ((t.atlas y).explore asked follow bound my confirmed []) := by
  rw [Atlas.explore, Atlas.explore]
  have hdir := c.directory_of_prefix hc (List.dropLast_prefix confirmed)
  refine (lstat hx hy hn hdir).bind ?_
  rintro found found' ⟨hsame, hstatus⟩
  refine .ok
    { left := rfl, right := rfl, path := h.place confirmed, parentExists := rfl, status := hsame
      place := rfl, neat := hn, parent := iff_of_true rfl hdir
      way := fun front hf => .inl (c.directory_of_prefix hdir hf)
      missing := fun hnone => ?_, found := fun st hst => ?_
      settled := fun _ text htext => by cases hc.symm.trans htext }
  · obtain rfl : found = none := hnone
    exact Catalogue.none_of_status hstatus
  · obtain rfl : found = some st := hst
    exact Catalogue.node_of_status hstatus

/-- **A path is explored in the one store as in the other.** -/
theorem explore (asked : Path) (follow : Bool) (bound : ℕ)
    (hc : c.node? confirmed = some .directory) (hn : Neat (confirmed ++ pending)) :
    SameOutcome (c.Ends follow mx my)
      ((s.atlas x).explore asked follow bound mx confirmed pending)
      ((t.atlas y).explore asked follow bound my confirmed pending) := by
  induction bound using Nat.strong_induction_on generalizing confirmed pending with
  | _ bound ihLink =>
  induction pending generalizing confirmed with
  | nil =>
    rw [List.append_nil] at hn
    exact h.ends_confirmed hx hy hn hc
  | cons name rest ihName =>
  have hfront : Neat (confirmed ++ [name]) :=
    hn.of_prefix ⟨rest, by simp⟩
  have hdir : c.node? (confirmed ++ [name]).dropLast = some .directory := by
    rwa [List.dropLast_concat]
  rw [Atlas.explore, Atlas.explore]
  refine (lstat hx hy hfront hdir).bind ?_
  rintro found found' ⟨hsame, hstatus⟩
  cases found with
  | none =>
    obtain rfl : found' = none := by simpa using hsame
    exact .ok (h.ends_missing hn hc (Catalogue.none_of_status hstatus))
  | some st =>
  obtain ⟨st', rfl, hst⟩ : ∃ st', found' = some st' ∧ st'.untimed = st.untimed := by
    simpa using hsame
  have hkind : st'.kind = st.kind := by simpa using congrArg Status.kind hst
  have htarget : st'.target = st.target := by simpa using congrArg Status.target hst
  obtain ⟨node, hnode, htold⟩ := Catalogue.node_of_status hstatus
  dsimp only
  rw [hkind, htarget]
  split
  · -- A link is followed.
    rename_i hlink
    obtain ⟨text, rfl⟩ := (Node.kind_eq_link_iff htold).mp hlink.1
    obtain ⟨target, hread, htold⟩ := bind_eq_ok.mp htold
    have hst : st.target = some target := by
      rw [← Status.untimed_target, ← Except.ok.inj htold]
    rw [hst]
    cases bound with
    | zero => exact .error rfl
    | succ less =>
    dsimp only
    split
    · exact .error rfl
    have hnormal : target.Normal := Path.normal_of_parse (mapError_eq_ok.mp hread)
    have htame : target.Among Tame := (c.texts _ text hnode).2 target hread
    have hrest : Neat rest := fun n hmem => hn n (by simp [hmem])
    split
    · rename_i habs
      have howner : SameOutcome (fun m m' => m = mx ∧ m' = my)
          ((s.atlas x).destination mx target asked) ((t.atlas y).destination my target asked) := by
        unfold Atlas.destination
        split
        · exact h.lookup target asked
        · exact .ok ⟨rfl, rfl⟩
      refine howner.bind ?_
      rintro _ _ ⟨rfl, rfl⟩
      exact ihLink less (Nat.lt_succ_self less) c.root
        ((neat_segments hnormal habs htame).append hrest)
    · have hback : confirmed.rdrop target.leadingDots <+: confirmed := List.take_prefix _ _
      have hneat : Neat (confirmed.rdrop target.leadingDots) :=
        hn.of_prefix (hback.trans (List.prefix_append _ _))
      exact ihLink less (Nat.lt_succ_self less) (c.directory_of_prefix hc hback)
        (hneat.append ((neat_afterDots hnormal htame).append hrest))
  rename_i hlink
  split
  · rename_i hr
    subst hr
    exact .ok (h.ends_found hfront hnode htold hst fun hfollow hk => hlink ⟨hk, .inl hfollow⟩)
  rename_i hr
  split
  · exact .error rfl
  rename_i hfile
  -- What is neither a link nor a file is one more confirmed directory.
  obtain rfl : node = .directory := by
    rcases Node.told_cases htold with ⟨content, -, hk⟩ | ⟨hk, -⟩ | ⟨text, target, -, hk, -⟩
    · exact absurd hk hfile
    · exact hk
    · exact absurd ⟨hk, .inr hr⟩ hlink
  exact ihName hnode (by simpa using hn)

/-- A path ends in the one store where it ends in the other. -/
theorem trace (hp : path.Complete) (hn : path.Among Tame) (follow : Bool) :
    SameOutcome (c.Ends follow mx my) (s.trace x path follow).outcome
      (t.trace y path follow).outcome := by
  rw [Session.trace, Session.trace, h.standpoint, h.maxLinks,
    Atlas.outcome_resolve _ (s.targetsNormal x) _ _ _ hp.normal hp.absolute,
    Atlas.outcome_resolve _ (t.targetsNormal y) _ _ _ hp.normal hp.absolute]
  refine (h.lookup _ _).bind ?_
  rintro _ _ ⟨rfl, rfl⟩
  refine h.explore hx hy _ follow _ c.root fun n hmem => ?_
  rw [List.nil_append] at hmem
  exact ⟨hp.normal.ordinary hp.absolute n hmem, hn n hmem⟩

end Session.Counterparts

/-! ## Resolving on both sides -/

namespace Session

/-- The path of the end can be read, wherever the catalogue is kept. -/
def Legible (s : Session) (m : Mount) (c : Catalogue) (path : Path) (follow : Bool) : Prop :=
  ∀ site r, m.Shows site c → s.Resolves site path follow r →
    (rootText r.path.segments).length ≤ maxTextLength

variable {s t : Session} {path : Path}

namespace Counterparts

variable (h : s.Counterparts t mx my) (hp : path.Complete) (hn : path.Among Tame)
  (hl : s.Legible mx c path follow)

include h hp hn hl

/-- **A path is resolved in the one session as in the other.** -/
theorem joint_resolve : Work.Joint mx my E c
    (fun r r' c' => c = c' ∧ c.Ends follow mx my r r' ∧ Storable r.path.segments)
    (s.resolve path follow) (t.resolve path follow) := by
  intro x y hx hy
  rw [eval_resolve, eval_resolve]
  refine .inr ⟨c, hx.told _, hy.told _, ?_⟩
  exact (h.trace hx hy hp hn follow).mono_of_ok fun r r' hr hends =>
    ⟨rfl, hends, hends.neat, hl x r hx hr⟩

/-- An entry that is required is there in both, or in neither. -/
theorem joint_require : Work.Joint mx my E c
    (fun found found' c' => c = c' ∧ c.Ends follow mx my found.1 found'.1 ∧
      Storable found.1.path.segments ∧ found.1.status = some found.2 ∧
      found'.1.status = some found'.2 ∧ found'.2.untimed = found.2.untimed)
    (s.require path follow) (t.require path follow) := by
  refine (h.joint_resolve hp hn hl).bind ?_
  rintro r r' _ ⟨rfl, hends, hstorable⟩
  rcases hends.status_cases with ⟨hr, hr'⟩ | ⟨st, st', hr, hr', hst⟩ <;> rw [hr, hr']
  · exact Work.joint_throw rfl
  · exact Work.joint_pure ⟨rfl, hends, hstorable, hr, hr', hst⟩

end Counterparts

end Session

end MountSpace
