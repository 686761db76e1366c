import MountSpace.Resolve
import MountSpace.Proofs.Outcome
import MountSpace.Proofs.Path.Normal

/-!
# Walking along confirmed names

A walk that comes to a directory goes on; so a walk along names that are all known to be
directories comes to the end of them, and can meet neither a link, a file, a gap nor a failure on
the way.  Everything about repeated walks rests on this.

## Main definitions

* `Mount.place` — the path of some names below the root of a mount.
* `Atlas.lstat` — what a mount reports of the entry below some names.
* `Atlas.IsDirectory`, `Atlas.Confirmed` — one directory, and directories all the way down.
* `Atlas.TargetsNormal` — links lead to paths in normal form.
-/

namespace MountSpace

/-- The path of some names below the root of a mount. -/
def Mount.place (m : Mount) (names : List String) : Path := ⟨m.location, names, true⟩

namespace Mount

variable (m : Mount) {names more : List String}

@[simp] theorem place_location (names : List String) : (m.place names).location = m.location := rfl

@[simp] theorem place_segments (names : List String) : (m.place names).segments = names := rfl

@[simp] theorem place_absolute (names : List String) : (m.place names).absolute = true := rfl

@[simp] theorem place_localText_nil : (m.place []).localText = "/" := rfl

theorem place_isStated (names : List String) : (m.place names).location.isStated = true := rfl

/-- A path from the root of the mount is the place of its names. -/
theorem eq_place {p : Path} (hl : p.location = m.location) (ha : p.absolute = true) :
    p = m.place p.segments := by
  cases p
  simp_all [place]

theorem place_child (hn : ∀ n ∈ names, Ordinary n) (hm : ∀ n ∈ more, Ordinary n) :
    (m.place names).child more = m.place (names ++ more) := by
  have h : ∀ n ∈ names ++ more, Ordinary n := fun n hn' =>
    (List.mem_append.mp hn').elim (hn n) (hm n)
  simp [Path.child, place, Path.collapse_ordinary h]

theorem place_parent? (name : String) :
    (m.place (names ++ [name])).parent? = some (m.place names) := by
  simp [Path.parent?, place]

end Mount

namespace Atlas

variable {a : Atlas} {m : Mount} {names front : List String} {name : String}

/-- What a mount reports of the entry below some names. -/
def lstat (a : Atlas) (m : Mount) (names : List String) : Except Error (Option Status) :=
  a.status m (m.place names).localText

/-- There is a directory below the names. -/
def IsDirectory (a : Atlas) (m : Mount) (names : List String) : Prop :=
  ∃ status, a.lstat m names = .ok (some status) ∧ status.kind = .directory

/-- There are directories all the way down the names.  Nothing is said of the root, which no walk
looks at on its way. -/
def Confirmed (a : Atlas) (m : Mount) (names : List String) : Prop :=
  ∀ front, front <+: names → front ≠ [] → a.IsDirectory m front

/-- Links lead to paths in normal form. -/
def TargetsNormal (a : Atlas) : Prop :=
  ∀ m text status target, a.status m text = .ok (some status) → status.kind = .link →
    status.target = some target → target.Normal

theorem confirmed_nil (a : Atlas) (m : Mount) : a.Confirmed m [] := by
  intro front hf hne
  exact absurd (List.prefix_nil.mp hf) hne

theorem Confirmed.mono (h : a.Confirmed m names) (hf : front <+: names) : a.Confirmed m front :=
  fun f hff hne => h f (hff.trans hf) hne

theorem Confirmed.concat (h : a.Confirmed m names) (hd : a.IsDirectory m (names ++ [name])) :
    a.Confirmed m (names ++ [name]) := by
  intro front hf hne
  rcases List.prefix_concat_iff.mp hf with rfl | hf
  · exact hd
  · exact h front hf hne

/-! ## One walk -/

variable {path asked : Path} {follow : Bool} {rest : List String}

/-- One step of a walk below a root. -/
theorem advance_cons (hn : ∀ n ∈ names, Ordinary n) (hname : Ordinary name) :
    a.advance m path asked follow (m.place names) (name :: rest) = (do
      match ← a.lstat m (names ++ [name]) with
      | none => return .arrived ⟨path, m, none, rest.isEmpty⟩
      | some status =>
        if status.kind = .link ∧ (follow ∨ rest ≠ []) then
          match status.target with
          | some target => return .met (m.place (names ++ [name])) target rest
          | none => throw .linkWithoutTarget
        else if rest = [] then return .arrived ⟨path, m, some status, true⟩
        else if status.kind = .file then
          throw (.parentIsFile (m.place (names ++ [name])).text asked.text)
        else a.advance m path asked follow (m.place (names ++ [name])) rest) := by
  have hhere : (m.place names).child [name] = m.place (names ++ [name]) :=
    m.place_child hn (by simpa using hname)
  rw [advance, hhere]
  rfl

/-- A walk goes on from a directory. -/
theorem advance_cons_of_isDirectory (hn : ∀ n ∈ names, Ordinary n) (hname : Ordinary name)
    (hd : a.IsDirectory m (names ++ [name])) (hr : rest ≠ []) :
    a.advance m path asked follow (m.place names) (name :: rest) =
      a.advance m path asked follow (m.place (names ++ [name])) rest := by
  obtain ⟨status, hs, hk⟩ := hd
  rw [advance_cons hn hname, hs]
  simp [hk, hr, bind, Except.bind]

/-- A walk comes to the end of names that are directories all the way down. -/
theorem advance_append {done : List String} (ho : ∀ n ∈ names ++ done, Ordinary n)
    (hc : a.Confirmed m (names ++ done)) (hr : rest ≠ []) :
    a.advance m path asked follow (m.place names) (done ++ rest) =
      a.advance m path asked follow (m.place (names ++ done)) rest := by
  induction done generalizing names with
  | nil => simp
  | cons name done ih =>
    have hsplit : names ++ name :: done = names ++ [name] ++ done := by simp
    rw [hsplit] at ho hc ⊢
    have hhere : ∀ n ∈ names ++ [name], Ordinary n := fun n hn => ho n (by simp at hn ⊢; tauto)
    rw [List.cons_append, advance_cons_of_isDirectory (fun n hn => hhere n (by simp [hn]))
      (hhere name (by simp)) (hc _ (by simp) (by simp)) (by simp [hr])]
    exact ih ho hc

/-- A walk along directories all the way down arrives at the last of them. -/
theorem advance_confirmed {done : List String} {status : Status}
    (ho : ∀ n ∈ done, Ordinary n) (hne : done ≠ []) (hc : a.Confirmed m done)
    (hs : a.lstat m done = .ok (some status)) :
    a.advance m path asked follow (m.place []) done =
      .ok (.arrived ⟨path, m, some status, true⟩) := by
  obtain ⟨front, name, rfl⟩ := List.eq_nil_or_concat'  done |>.resolve_left hne
  obtain ⟨status', hs', hk⟩ := hc _ (List.prefix_refl _) hne
  obtain rfl : status' = status := by simpa [hs] using hs'.symm
  have hfront : ∀ n ∈ front, Ordinary n := fun n hn => ho n (by simp [hn])
  have hthrough : a.advance m path asked follow (m.place []) (front ++ [name]) =
      a.advance m path asked follow (m.place ([] ++ front)) [name] :=
    advance_append (by simpa using hfront) (hc.mono (by simp)) (by simp)
  rw [hthrough, List.nil_append, advance_cons hfront (ho name (by simp)), hs]
  simp [hk, bind, Except.bind, pure, Except.pure]

/-! ## The mount of a walk -/

/-- A mount that owns a path owns all paths of its location. -/
theorem lookup_congr {r : Registry} {p q : Path} (hl : q.location = p.location) (asked : Path) :
    r.lookup q asked = r.lookup p asked := by
  unfold Registry.lookup
  rw [hl]

/-- Whether a mount owns a path does not depend on the path a caller began with. -/
theorem lookup_asked {r : Registry} {p asked : Path} (other : Path)
    (h : r.lookup p asked = .ok m) : r.lookup p other = .ok m := by
  unfold Registry.lookup at h ⊢
  split at h
  · cases h
  · cases h
  · split at h
    · exact h
    · split at h <;> cases h
  · split at h
    · exact h
    · cases h

/-- A mount that owns a path owns every place in itself. -/
theorem lookup_place {r : Registry} {p asked : Path} (h : r.lookup p asked = .ok m)
    (names : List String) (other : Path) : r.lookup (m.place names) other = .ok m := by
  rw [lookup_congr (p := p) (by simp [Registry.location_of_lookup h])]
  exact lookup_asked other h

/-- The walk to a place in a mount that owns it. -/
theorem leg_place (h : a.registry.lookup (m.place names) asked = .ok m) :
    a.leg asked follow (m.place names) =
      (a.walk m (m.place names) asked follow).map (m, ·) := by
  cases hw : a.walk m (m.place names) asked follow <;>
    simp [leg, h, hw, bind, Except.bind, pure, Except.pure, Except.map]

theorem walk_place_nil : a.walk m (m.place []) asked follow =
    (a.lstat m []).map fun status => .arrived ⟨m.place [], m, status, true⟩ := by
  have hroot : (m.place []).isRoot = true := rfl
  rw [walk, if_pos hroot, lstat, Mount.place_localText_nil]
  rcases a.status m "/" with e | s <;> rfl

theorem walk_place (hne : names ≠ []) : a.walk m (m.place names) asked follow =
    a.advance m (m.place names) asked follow (m.place []) names := by
  have hroot : (m.place names).isRoot = false := by simpa [Path.isRoot] using hne
  rw [walk, hroot]
  rfl

/-! ## Repeated walks -/

/-- A walk begins with the names of the path. -/
@[simp] theorem start_segments (at_ : Standpoint) (path : Path) :
    (start at_ path).segments = path.segments := by
  unfold start
  split <;> rfl

@[simp] theorem start_absolute (at_ : Standpoint) (path : Path) :
    (start at_ path).absolute = path.absolute := by
  unfold start
  split <;> rfl

variable {bound : ℕ} {current next link target : Path} {e : Error} {r : Resolution}

theorem trace_of_error (h : a.leg asked follow current = .error e) :
    a.trace asked follow bound current = ⟨[], .error e⟩ := by
  unfold trace
  rw [h]

theorem trace_of_arrived (h : a.leg asked follow current = .ok (m, .arrived r)) :
    a.trace asked follow bound current = ⟨[], .ok r⟩ := by
  unfold trace
  rw [h]

theorem trace_of_met_zero (h : a.leg asked follow current = .ok (m, .met link target rest)) :
    a.trace asked follow 0 current = ⟨[], .error (.tooManyLinks asked.text)⟩ := by
  unfold trace
  rw [h]

theorem trace_of_met_refused (h : a.leg asked follow current = .ok (m, .met link target rest))
    (ho : onward m link target rest asked = .error e) :
    a.trace asked follow (bound + 1) current = ⟨[], .error e⟩ := by
  rw [trace, h]
  simp [ho]

theorem trace_of_met (h : a.leg asked follow current = .ok (m, .met link target rest))
    (ho : onward m link target rest asked = .ok next) :
    a.trace asked follow (bound + 1) current =
      ⟨⟨link, next⟩ :: (a.trace asked follow bound next).hops,
        (a.trace asked follow bound next).outcome⟩ := by
  rw [trace, h]
  simp [ho]

/-- Walks that come to an end do so at once, or after a link that sends them on. -/
theorem trace_cases (h : (a.trace asked follow bound current).outcome = .ok r) :
    (∃ m, a.leg asked follow current = .ok (m, .arrived r)) ∨
    ∃ less m link target rest next, bound = less + 1 ∧
      a.leg asked follow current = .ok (m, .met link target rest) ∧
      onward m link target rest asked = .ok next ∧
      (a.trace asked follow less next).outcome = .ok r := by
  cases hleg : a.leg asked follow current with
  | error e => rw [trace_of_error hleg] at h; cases h
  | ok last =>
    obtain ⟨m, leg⟩ := last
    cases leg with
    | arrived end_ =>
      rw [trace_of_arrived hleg] at h
      cases h
      exact .inl ⟨m, rfl⟩
    | met link target rest =>
      cases bound with
      | zero => rw [trace_of_met_zero hleg] at h; cases h
      | succ less =>
        cases ho : onward m link target rest asked with
        | error e => rw [trace_of_met_refused hleg ho] at h; cases h
        | ok next =>
          rw [trace_of_met hleg ho] at h
          exact .inr ⟨less, m, link, target, rest, next, rfl, rfl, ho, h⟩

/-- A walk runs in the mount that owns the path. -/
theorem leg_eq_ok {leg : Leg} : a.leg asked follow current = .ok (m, leg) ↔
    a.registry.lookup current asked = .ok m ∧ a.walk m current asked follow = .ok leg := by
  unfold Atlas.leg
  rw [bind_eq_ok]
  constructor
  · rintro ⟨owner, hl, h⟩
    obtain ⟨found, hw, h⟩ := bind_eq_ok.mp h
    cases h
    exact ⟨hl, hw⟩
  · rintro ⟨hl, hw⟩
    exact ⟨m, hl, bind_eq_ok.mpr ⟨leg, hw, rfl⟩⟩

end Atlas

end MountSpace
