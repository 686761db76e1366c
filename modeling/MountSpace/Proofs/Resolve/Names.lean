import MountSpace.Proofs.Path.Lasting
import MountSpace.Proofs.Resolve.Canonical

/-!
# Names on the way

The names of a resolved path come from the path that was asked for and from the targets of the
links that were followed.  So whatever holds of the names in these holds of the names at the end.

## Main definitions

* `Path.Among` — a path whose names have a property.
* `Path.Says` — a text that is read as such a path, if it is read at all.
* `Atlas.TargetsAmong` — links lead to such paths.

Main statement: `Atlas.among_of_resolve`.
-/

namespace MountSpace

namespace Path

variable {P : String → Prop} {p q : Path} {names : List String} {text : String}

/-- All names of the path have the property. -/
def Among (P : String → Prop) (p : Path) : Prop := ∀ n ∈ p.segments, P n

/-- The text is read as a path whose names have the property, if it is read at all. -/
def Says (P : String → Prop) (text : String) : Prop := ∀ p, read text = .ok p → p.Among P

theorem among_root (P : String → Prop) (l : Location) : (root l).Among P := List.forall_mem_nil P

theorem Among.child (h : p.Among P) (hn : ∀ n ∈ names, P n) : (p.child names).Among P := by
  intro n hmem
  rcases List.mem_append.mp (mem_of_mem_collapse hmem) with hmem | hmem
  · exact h n hmem
  · exact hn n hmem

theorem Among.join (h : p.Among P) (hq : q.Among P) : (p.join q).Among P := by
  unfold Path.join
  split
  · exact hq
  · exact h.child hq

theorem Among.parent? {dir : Path} (h : p.Among P) (hd : p.parent? = some dir) : dir.Among P := by
  unfold Path.parent? at hd
  split at hd <;> cases hd
  exact fun n hn => h n (List.dropLast_subset _ hn)

theorem Among.mono {Q : String → Prop} (h : p.Among P) (hPQ : ∀ n, P n → Q n) : p.Among Q :=
  fun n hn => hPQ n (h n hn)

theorem Among.complete {at_ : Standpoint} (hat : at_.workingDirectory.Among P) (h : p.Among P) :
    (at_.complete p).Among P := by
  have habsolute : (at_.makeAbsolute p).Among P := by
    unfold Standpoint.makeAbsolute
    split
    · exact h
    · exact hat.join h
  unfold Standpoint.complete Standpoint.qualify
  split <;> exact habsolute

instance [DecidablePred P] : Decidable (p.Among P) :=
  inferInstanceAs (Decidable (∀ n ∈ p.segments, P n))

instance [DecidablePred P] : Decidable (Says P text) :=
  match h : read text with
  | .ok p => decidable_of_iff (p.Among P) (by simp [Says, h])
  | .error e => .isTrue (by simp [Says, h])

theorem Says.mono {Q : String → Prop} (h : Says P text) (hPQ : ∀ n, P n → Q n) : Says Q text :=
  fun p hp => (h p hp).mono hPQ

/-- A path without blanks around its names says those names when it is written out. -/
theorem says_text (hP : ∀ n, P n → ¬StartsBlank n ∧ ¬EndsBlank n) (hp : p.Normal)
    (hl : p.location.Plain) (h : p.Among P) : Says P p.text := by
  intro q hq
  obtain ⟨-, rfl, -⟩ := parse_eq_ok_iff.mp (mapError_eq_ok.mp hq)
  cases ha : p.absolute with
  | true =>
    have hsettled : settle p.segments = p.segments :=
      (settle_eq_self_iff (hp.ordinary ha)).mpr fun n hn => (hP n (h n (List.mem_of_getLast? hn))).2
    rw [toPath_text hp ha hl, hsettled]
    exact h
  | false =>
    have htrim := (trim_text_relative hp ha).mpr
      ⟨fun n hn => (hP n (h n (List.mem_of_head? hn))).1,
        fun n hn => (hP n (h n (List.mem_of_getLast? hn))).2⟩
    rw [(toPath_text_relative hp ha).mpr htrim]
    exact h

end Path

/-- The owner of a path is one of the mounts. -/
theorem Registry.mem_of_lookup {r : Registry} {path named : Path} {m : Mount}
    (h : r.lookup path named = .ok m) : m ∈ r.mounts := by
  have hat : ∀ {l : Location}, r.at? l = some m → m ∈ r.mounts := fun hl =>
    (at?_eq_some_iff.mp hl).1
  unfold lookup at h
  split at h
  · cases h
  · cases h
  · split at h
    · rename_i found hfound
      cases h
      exact hat hfound
    · split at h <;> cases h
  · split at h
    · rename_i found hfound
      cases h
      exact hat hfound
    · cases h

namespace Atlas

variable {P : String → Prop} {a : Atlas} {m : Mount} {rest : List String}
variable {link target asked current next : Path} {follow : Bool} {r : Resolution}

/-- Links in the mounts lead to paths whose names have the property. -/
def TargetsAmong (P : String → Prop) (a : Atlas) : Prop :=
  ∀ m ∈ a.registry.mounts, ∀ text status target, a.status m text = .ok (some status) →
    status.target = some target → target.Among P

theorem among_of_onward (hlink : link.Among P) (htarget : target.Among P) (hrest : ∀ n ∈ rest, P n)
    (h : onward m link target rest asked = .ok next) : next.Among P := by
  unfold onward at h
  split at h
  · cases h
  split at h
  · split at h
    · rename_i dir hdir
      cases h
      exact ((hlink.parent? hdir).join htarget).child hrest
    · cases h
  split at h <;> cases h
  · exact Path.Among.child (p := target.withLocation m.location) htarget hrest
  · exact htarget.child hrest

/-- Where a walk is sent on, the names are those it has and those of the target. -/
theorem among_of_met (ha : a.TargetsAmong P) (habs : current.absolute = true)
    (ho : ∀ n ∈ current.segments, Ordinary n) (hcurrent : current.Among P)
    (hleg : a.leg asked follow current = .ok (m, .met link target rest))
    (hnext : onward m link target rest asked = .ok next) : next.Among P := by
  obtain ⟨front, name, status, hsplit, rfl, hs, -, ht⟩ := met_of_leg habs ho hleg
  unfold Path.Among at hcurrent
  rw [hsplit] at hcurrent
  have hlink : (m.place (front ++ [name])).Among P := by
    intro n hn
    refine hcurrent n ?_
    rcases List.mem_append.mp hn with hn | hn
    · simp [hn]
    · simp [List.mem_singleton.mp hn]
  have hmount := Registry.mem_of_lookup (leg_eq_ok.mp hleg).1
  exact among_of_onward hlink (ha m hmount _ _ _ hs ht) (fun n hn => hcurrent n (by simp [hn]))
    hnext

/-- Walks end at a path with names of the path they begin with and of the targets of links. -/
theorem among_of_trace (hnormal : a.TargetsNormal) (ha : a.TargetsAmong P) {bound : ℕ}
    (habs : current.absolute = true) (ho : ∀ n ∈ current.segments, Ordinary n)
    (hcurrent : current.Among P) (h : (a.trace asked follow bound current).outcome = .ok r) :
    r.path.Among P := by
  induction bound using Nat.strong_induction_on generalizing current with
  | _ bound ih =>
  rcases trace_cases h with ⟨m, hleg⟩ | ⟨less, m, link, target, rest, next, rfl, hleg, hnext, h⟩
  · rwa [path_of_leg hleg]
  · obtain ⟨hna, hno⟩ := ordinary_of_met hnormal habs ho hleg hnext
    exact ih less (Nat.lt_succ_self less) hna hno (among_of_met ha habs ho hcurrent hleg hnext) h

/-- Walks end at the path they begin with, or at one on which a link has sent them. -/
theorem among_of_hops {bound : ℕ} (hcurrent : current.Among P)
    (hhops : ∀ hop ∈ (a.trace asked follow bound current).hops, hop.onward.Among P)
    (h : (a.trace asked follow bound current).outcome = .ok r) : r.path.Among P := by
  induction bound using Nat.strong_induction_on generalizing current with
  | _ bound ih =>
  rcases trace_cases h with ⟨m, hleg⟩ | ⟨less, m, link, target, rest, next, rfl, hleg, hnext, h⟩
  · rwa [path_of_leg hleg]
  · rw [trace_of_met hleg hnext] at hhops
    refine ih less (Nat.lt_succ_self less) (hhops ⟨link, next⟩ (by simp)) (fun hop hmem => ?_) h
    exact hhops hop (List.mem_cons_of_mem _ hmem)

/-- **Resolving keeps to the names it is given**, in the path and in the targets of links. -/
theorem among_of_resolve (hnormal : a.TargetsNormal) (ha : a.TargetsAmong P) {at_ : Standpoint}
    {bound : ℕ} {path : Path} (hp : path.Normal) (habs : path.absolute = true)
    (hamong : path.Among P) (h : (a.resolve at_ bound path follow).outcome = .ok r) :
    r.path.Among P := by
  have hstart : (start at_ path).Among P := by
    unfold Path.Among
    rwa [start_segments]
  exact among_of_trace hnormal ha (by simpa) (by simpa using hp.ordinary habs) hstart h

end Atlas

end MountSpace
