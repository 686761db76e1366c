import MountSpace.Proofs.Resolve.Canonical

/-!
# When mounts come to hold more

A walk goes wherever it went before when every directory and every link that was reported is still
reported; files only end walks.  Only where it found nothing, or a file, may it now go on.

## Main definitions

* `Status.SameEntry` — two reports that agree but for the path and the times.
* `Atlas.KeepsWays` — what was reported still is, files aside.
* `Atlas.Extends` — what was reported still is.

Main statement: `Atlas.KeepsWays.trace_outcome`.
-/

namespace MountSpace

/-- Two reports that agree but for the path and the times. -/
structure Status.SameEntry (st st' : Status) : Prop where
  kind : st'.kind = st.kind
  size : st'.size = st.size
  target : st'.target = st.target

theorem Status.SameEntry.refl (st : Status) : st.SameEntry st := ⟨rfl, rfl, rfl⟩

namespace Atlas

/-- The same mounts, and whatever is reported below some names in `a`, and is no file, is reported
in `a'`. -/
structure KeepsWays (a a' : Atlas) : Prop where
  registry : a'.registry = a.registry
  lstat : ∀ m names status, (∀ n ∈ names, Ordinary n) → a.lstat m names = .ok (some status) →
    status.kind ≠ .file → ∃ status', a'.lstat m names = .ok (some status') ∧
      status'.kind = status.kind ∧ status'.target = status.target

/-- The same mounts, and whatever is reported below some names in `a` is reported in `a'`. -/
structure Extends (a a' : Atlas) : Prop where
  registry : a'.registry = a.registry
  lstat : ∀ m names status, (∀ n ∈ names, Ordinary n) → a.lstat m names = .ok (some status) →
    ∃ status', a'.lstat m names = .ok (some status') ∧ status.SameEntry status'

variable {a a' : Atlas} {m : Mount} {names done pending : List String} {name : String}
variable {path asked current : Path} {follow : Bool} {r : Resolution}

namespace KeepsWays

theorem refl (a : Atlas) : a.KeepsWays a :=
  ⟨rfl, fun _ _ status _ hs _ => ⟨status, hs, rfl, rfl⟩⟩

theorem trans {mid : Atlas} (h : a.KeepsWays mid) (h' : mid.KeepsWays a') : a.KeepsWays a' where
  registry := h'.registry.trans h.registry
  lstat m names status ho hs hk := by
    obtain ⟨st, hst, hkind, htarget⟩ := h.lstat m names status ho hs hk
    obtain ⟨st', hst', hkind', htarget'⟩ := h'.lstat m names st ho hst (hkind ▸ hk)
    exact ⟨st', hst', hkind'.trans hkind, htarget'.trans htarget⟩

variable (h : a.KeepsWays a')

include h

theorem isDirectory (ho : ∀ n ∈ names, Ordinary n) (hd : a.IsDirectory m names) :
    a'.IsDirectory m names := by
  obtain ⟨status, hs, hk⟩ := hd
  obtain ⟨status', hs', hkind, -⟩ := h.lstat m names status ho hs (by simp [hk])
  exact ⟨status', hs', hkind.trans hk⟩

theorem confirmed (ho : ∀ n ∈ names, Ordinary n) (hc : a.Confirmed m names) :
    a'.Confirmed m names := fun front hf hne =>
  h.isDirectory (fun n hn => ho n (hf.subset hn)) (hc front hf hne)

/-- A walk that meets a link meets it again. -/
theorem advance_met {link target : Path} {rest : List String}
    (ho : ∀ n ∈ done ++ pending, Ordinary n)
    (hadv : a.advance m path asked follow (m.place done) pending = .ok (.met link target rest)) :
    a'.advance m path asked follow (m.place done) pending = .ok (.met link target rest) := by
  induction pending generalizing done with
  | nil => cases hadv
  | cons next more ih =>
    have hfront : ∀ n ∈ done, Ordinary n := fun n hn => ho n (by simp [hn])
    have hnext : Ordinary next := ho next (by simp)
    rw [advance_cons hfront hnext] at hadv ⊢
    obtain ⟨found, hs, hadv⟩ := bind_eq_ok.mp hadv
    cases found with
    | none => cases hadv
    | some status =>
    have hhere : ∀ n ∈ done ++ [next], Ordinary n := fun n hn => ho n (by simp at hn ⊢; tauto)
    have hpassed : status.kind ≠ .file := by
      intro hfile
      dsimp only at hadv
      rw [if_neg (by simp [hfile]), if_pos hfile] at hadv
      split at hadv <;> cases hadv
    obtain ⟨status', hs', hkind, htarget⟩ := h.lstat m _ status hhere hs hpassed
    rw [hs']
    simp only [bind, Except.bind, hkind, htarget]
    dsimp only at hadv
    split at hadv
    · rename_i hlink
      rw [if_pos hlink]
      exact hadv
    rename_i hlink
    rw [if_neg hlink]
    split at hadv
    · cases hadv
    rename_i hmore
    rw [if_neg hmore, if_neg hpassed]
    exact ih (by simpa using ho) hadv

/-- A walk of a path that meets a link meets it again. -/
theorem leg_met {link target : Path} {rest : List String} (habs : current.absolute = true)
    (ho : ∀ n ∈ current.segments, Ordinary n)
    (hleg : a.leg asked follow current = .ok (m, .met link target rest)) :
    a'.leg asked follow current = .ok (m, .met link target rest) := by
  obtain ⟨hl, hwalk⟩ := leg_eq_ok.mp hleg
  refine leg_eq_ok.mpr ⟨h.registry ▸ hl, ?_⟩
  rw [m.eq_place (Registry.location_of_lookup hl).symm habs] at hwalk ⊢
  by_cases hne : current.segments = []
  · rw [hne, walk_place_nil] at hwalk
    obtain ⟨status, -, hwalk⟩ := map_eq_ok.mp hwalk
    cases hwalk
  · rw [walk_place hne] at hwalk ⊢
    exact h.advance_met (by simpa using ho) hwalk

/-- **Walks end where they ended, or go on from there**: the links that were followed on the way
are followed again. -/
theorem trace_outcome (ha : a.TargetsNormal) {bound : ℕ} (habs : current.absolute = true)
    (ho : ∀ n ∈ current.segments, Ordinary n)
    (hr : (a.trace asked follow bound current).outcome = .ok r) :
    ∃ less, (a'.trace asked follow bound current).outcome =
      (a'.trace asked follow less r.path).outcome := by
  induction bound using Nat.strong_induction_on generalizing current with
  | _ bound ih =>
  rcases trace_cases hr with ⟨m, hleg⟩ | ⟨less, m, link, target, rest, next, rfl, hleg, hnext, hr⟩
  · exact ⟨bound, by rw [path_of_leg hleg]⟩
  obtain ⟨hna, hno⟩ := ordinary_of_met ha habs ho hleg hnext
  obtain ⟨last, hlast⟩ := ih less (Nat.lt_succ_self less) hna hno hr
  exact ⟨last, by rw [trace_of_met (h.leg_met habs ho hleg) hnext, hlast]⟩

end KeepsWays

namespace Extends

variable (h : a.Extends a')

include h

theorem keepsWays : a.KeepsWays a' where
  registry := h.registry
  lstat m names status ho hs _ := by
    obtain ⟨status', hs', hsame⟩ := h.lstat m names status ho hs
    exact ⟨status', hs', hsame.kind, hsame.target⟩

theorem isDirectory (ho : ∀ n ∈ names, Ordinary n) (hd : a.IsDirectory m names) :
    a'.IsDirectory m names := h.keepsWays.isDirectory ho hd

theorem confirmed (ho : ∀ n ∈ names, Ordinary n) (hc : a.Confirmed m names) :
    a'.Confirmed m names := h.keepsWays.confirmed ho hc

theorem trace_outcome (ha : a.TargetsNormal) {bound : ℕ} (habs : current.absolute = true)
    (ho : ∀ n ∈ current.segments, Ordinary n)
    (hr : (a.trace asked follow bound current).outcome = .ok r) :
    ∃ less, (a'.trace asked follow bound current).outcome =
      (a'.trace asked follow less r.path).outcome := h.keepsWays.trace_outcome ha habs ho hr

end Extends

/-! ## Walks along directories -/

/-- A walk down directories that follows no link in the last place ends at what is reported
there. -/
theorem leg_last (ho : ∀ n ∈ names ++ [name], Ordinary n) (hc : a.Confirmed m names)
    (hl : a.registry.lookup (m.place (names ++ [name])) asked = .ok m) :
    a.leg asked false (m.place (names ++ [name])) = (a.lstat m (names ++ [name])).map
      fun found => (m, .arrived ⟨m.place (names ++ [name]), m, found, true⟩) := by
  rw [leg_of_confirmed (lookup_place hl [] asked) ho hc,
    advance_cons (fun n hn => ho n (by simp [hn])) (ho name (by simp))]
  cases a.lstat m (names ++ [name]) with
  | error e => rfl
  | ok found => cases found <;> simp [bind, Except.bind, pure, Except.pure, Except.map]

/-- A walk down directories ends at what is no link. -/
theorem leg_of_status {status : Status} (follow : Bool) (ho : ∀ n ∈ names, Ordinary n)
    (hc : a.Confirmed m names.dropLast) (hs : a.lstat m names = .ok (some status))
    (hk : status.kind ≠ .link) (hl : a.registry.lookup (m.place names) asked = .ok m) :
    a.leg asked follow (m.place names) =
      .ok (m, .arrived ⟨m.place names, m, some status, true⟩) := by
  rcases List.eq_nil_or_concat' names with rfl | ⟨front, name, rfl⟩
  · rw [leg_place hl, walk_place_nil, hs]
    rfl
  · rw [List.dropLast_concat] at hc
    rw [leg_of_confirmed (lookup_place hl [] asked) ho hc,
      advance_cons (fun n hn => ho n (by simp [hn])) (ho name (by simp)), hs]
    simp [hk, bind, Except.bind, pure, Except.pure, Except.map]

/-- A walk down directories that are there to the end ends at the last of them. -/
theorem leg_of_isDirectory (follow : Bool) (ho : ∀ n ∈ names, Ordinary n)
    (hc : a.Confirmed m names) (hd : a.IsDirectory m names)
    (hl : a.registry.lookup (m.place names) asked = .ok m) :
    ∃ status, status.kind = .directory ∧ a.lstat m names = .ok (some status) ∧
      a.leg asked follow (m.place names) =
        .ok (m, .arrived ⟨m.place names, m, some status, true⟩) := by
  obtain ⟨status, hs, hk⟩ := hd
  exact ⟨status, hk, hs,
    leg_of_status follow ho (hc.mono (List.dropLast_prefix _)) hs (by simp [hk]) hl⟩

end Atlas

end MountSpace
